import Mathlib.Tactic.ByContra
import ByteTape.Proofs.Grammar

/-!
# Where a fault of the notation lies

A text that cannot be read has a first lexeme that does not fit, and the fault points to it. So the
text before it can be read by itself. A number in brackets that is too large is blamed by its own
offset, behind the bracket, and there the text before the bracket can be read.

Faults give offsets in bytes, and lexemes have lost the blanks between them. `Lexeme.exists_split`
goes back from a lexeme to the text: what stands before it has the lexemes before it, and what is
behind it has the others.
-/

namespace ByteTape

/-- The offset of the character to blame. -/
def NotationFault.offset : NotationFault → Nat
  | .duplicatePointer offset => offset
  | .duplicateBar offset => offset
  | .unterminatedPointer offset => offset
  | .unexpected _ offset => offset
  | .outOfRange _ offset => offset

namespace Notation

theorem utf8ByteSize_ofList (text : List Char) :
    (String.ofList text).utf8ByteSize = byteSize text := by
  induction text with
  | nil => rfl
  | cons c text ih =>
    rw [String.ofList_cons, String.utf8ByteSize_append, String.utf8ByteSize_singleton, ih,
      byteSize_cons]

/-! ### Lexemes in their text -/

theorem noDigit_append {front back : List Char} (hfront : NoDigit front)
    (hback : front = [] → NoDigit back) : NoDigit (front ++ back) := by
  cases front with
  | nil => exact hback rfl
  | cons c front => exact hfront

theorem NoDigit.of_append {front back : List Char} (h : NoDigit (front ++ back)) :
    NoDigit front := by
  cases front with
  | nil => exact noDigit_nil
  | cons c front => exact h

theorem isDigit_of_isBlank {c : Char} (h : Text.isBlank c = true) : c.isDigit = false := by
  rw [Bool.eq_false_iff]
  intro hdigit
  rw [isBlank_of_isDigit hdigit] at h
  cases h

/-- How a symbol stands in a text: a number goes as far as there are digits, to both sides, and a
stray character has no other meaning. -/
def Symbol.Fits (before : List Char) : Symbol → List Char → Prop
  | .number digits, behind =>
    digits ≠ [] ∧ (∀ c ∈ digits, c.isDigit = true) ∧ NoDigit before.reverse ∧ NoDigit behind
  | .opening, _ => True
  | .closing, _ => True
  | .bar, _ => True
  | .stray c, _ =>
    Text.isBlank c = false ∧ c.isDigit = false ∧ c ≠ '[' ∧ c ≠ ']' ∧ c ≠ '|'

theorem Symbol.fits_ofChar {c : Char} (hblank : Text.isBlank c = false)
    (hdigit : c.isDigit = false) (before behind : List Char) :
    (Symbol.ofChar c).Fits before behind := by
  unfold Symbol.ofChar
  split
  · trivial
  · trivial
  · trivial
  · exact ⟨hblank, hdigit, by assumption, by assumption, by assumption⟩

theorem Symbol.Fits.append {before behind : List Char} {symbol : Symbol}
    (h : symbol.Fits before behind) (part : List Char)
    (hpart : before = [] → ∀ digits, symbol = .number digits → NoDigit part.reverse) :
    symbol.Fits (part ++ before) behind := by
  cases symbol with
  | number digits =>
    obtain ⟨hne, hdigits, hbefore, hbehind⟩ := h
    refine ⟨hne, hdigits, ?_, hbehind⟩
    rw [List.reverse_append]
    apply noDigit_append hbefore
    intro hnil
    exact hpart (List.reverse_eq_nil_iff.1 hnil) digits rfl
  | opening => trivial
  | closing => trivial
  | bar => trivial
  | stray c => exact h

theorem Symbol.chars_ofChar (c : Char) : (Symbol.ofChar c).chars = [c] := by
  unfold Symbol.ofChar
  split <;> rfl

theorem Symbol.ofChar_inj {c d : Char} : Symbol.ofChar c = Symbol.ofChar d ↔ c = d := by
  constructor
  · intro h
    have hchars := congrArg Symbol.chars h
    rw [chars_ofChar, chars_ofChar] at hchars
    exact List.singleton_inj.1 hchars
  · rintro rfl
    rfl

theorem Symbol.ofChar_ne_number (c : Char) (digits : List Char) :
    Symbol.ofChar c ≠ .number digits := by
  unfold Symbol.ofChar
  split <;> exact Symbol.noConfusion

namespace Lexeme

/-- A lexeme of a text stands between the text of the lexemes before it and that of those behind
it. -/
theorem exists_split {offset : Nat} {text : List Char} {front back : List Lexeme} {lexeme : Lexeme}
    (h : scanFrom offset text = front ++ lexeme :: back) :
    ∃ before behind, text = before ++ (lexeme.symbol.chars ++ behind) ∧
      scanFrom offset before = front ∧ lexeme.start = offset + byteSize before ∧
      scanFrom lexeme.stop behind = back ∧ lexeme.symbol.Fits before behind := by
  fun_induction scanFrom offset text generalizing front with
  | case1 offset => cases front <;> cases h
  | case2 offset c rest hblank ih =>
    obtain ⟨before, behind, rfl, hfront, hstart, hback, hfits⟩ := ih h
    refine ⟨c :: before, behind, rfl, ?_, ?_, hback, ?_⟩
    · rw [scanFrom_blank hblank, hfront]
    · rw [hstart, byteSize_cons, Nat.add_assoc]
    · apply hfits.append [c]
      intro _ _ _
      exact noDigit_cons (isDigit_of_isBlank hblank) []
  | case3 offset c rest hblank hdigit digits =>
    rename_i ih
    have hdigits : ∀ d ∈ digits, d.isDigit = true := by
      refine List.forall_mem_cons.2 ⟨hdigit, fun d hd => ?_⟩
      exact List.all_eq_true.1 List.all_takeWhile d hd
    have hrest := noDigit_dropWhile rest
    have htext : c :: rest = digits ++ rest.dropWhile Char.isDigit :=
      congrArg (c :: ·) List.takeWhile_append_dropWhile.symm
    cases front with
    | nil =>
      obtain ⟨rfl, rfl⟩ := List.cons.inj h
      refine ⟨[], rest.dropWhile Char.isDigit, htext, scanFrom_nil offset, rfl, rfl, ?_⟩
      exact ⟨List.cons_ne_nil _ _, hdigits, noDigit_nil, hrest⟩
    | cons first front =>
      obtain ⟨rfl, hothers⟩ := List.cons.inj h
      obtain ⟨before, behind, hsplit, hfront, hstart, hback, hfits⟩ := ih hothers
      rw [hsplit] at htext hrest
      refine ⟨digits ++ before, behind, ?_, ?_, ?_, hback, ?_⟩
      · rw [htext, List.append_assoc]
      · rw [scanFrom_number hdigits (List.cons_ne_nil _ _) hrest.of_append, hfront]
      · rw [hstart, byteSize_append, Nat.add_assoc]
      · apply hfits.append
        -- Another number cannot follow at once.
        rintro rfl number hnumber
        rw [hnumber] at hfits hrest
        obtain ⟨hne, hmore, -, -⟩ := hfits
        obtain ⟨d, others, rfl⟩ := List.exists_cons_of_ne_nil hne
        have hd := hmore d List.mem_cons_self
        rw [hrest d rfl] at hd
        cases hd
  | case4 offset c rest hblank hdigit ih =>
    rw [Bool.not_eq_true] at hblank hdigit
    cases front with
    | nil =>
      obtain ⟨rfl, rfl⟩ := List.cons.inj h
      refine ⟨[], rest, ?_, scanFrom_nil offset, rfl, ?_, Symbol.fits_ofChar hblank hdigit _ _⟩
      · rw [Symbol.chars_ofChar]
        rfl
      · rw [stop, Symbol.chars_ofChar]
        rfl
    | cons first front =>
      obtain ⟨rfl, hothers⟩ := List.cons.inj h
      obtain ⟨before, behind, rfl, hfront, hstart, hback, hfits⟩ := ih hothers
      refine ⟨c :: before, behind, rfl, ?_, ?_, hback, ?_⟩
      · rw [scanFrom_char hblank hdigit, hfront]
      · rw [hstart, byteSize_cons, Nat.add_assoc]
      · apply hfits.append [c]
        intro _ _ _
        exact noDigit_cons hdigit []

theorem isBlank_of_scanFrom_eq_nil {offset : Nat} {text : List Char}
    (h : scanFrom offset text = []) : ∀ c ∈ text, Text.isBlank c = true := by
  induction text generalizing offset with
  | nil =>
    intro c hc
    cases hc
  | cons c rest ih =>
    rw [scanFrom_cons] at h
    by_cases hblank : Text.isBlank c = true
    · rw [if_pos hblank] at h
      exact List.forall_mem_cons.2 ⟨hblank, ih h⟩
    · rw [if_neg hblank] at h
      split at h <;> cases h

end Lexeme

theorem Tokens.ofChar_mem_iff {text : List Char} {s : List Symbol} (h : Tokens text s) {c : Char}
    (hblank : Text.isBlank c = false) (hdigit : c.isDigit = false) :
    Symbol.ofChar c ∈ s ↔ c ∈ text := by
  induction h with
  | nil => exact iff_of_false List.not_mem_nil List.not_mem_nil
  | @blank d rest s hd _ ih =>
    have hne : c ≠ d := by
      rintro rfl
      rw [hblank] at hd
      cases hd
    rw [ih, List.mem_cons, or_iff_right hne]
  | @number digits rest s hdigits _ _ _ ih =>
    have hnot : c ∉ digits := by
      intro hmem
      have hc := hdigits c hmem
      rw [hdigit] at hc
      cases hc
    rw [List.mem_cons, or_iff_right (Symbol.ofChar_ne_number c digits), ih, List.mem_append,
      or_iff_right hnot]
  | @char d rest s _ _ _ ih => rw [List.mem_cons, List.mem_cons, ih, Symbol.ofChar_inj]

/-- A character that is a symbol by itself is among the symbols if it is in the text. -/
theorem ofChar_mem_symbols_iff {c : Char} (hblank : Text.isBlank c = false)
    (hdigit : c.isDigit = false) {text : List Char} :
    Symbol.ofChar c ∈ symbols text ↔ c ∈ text :=
  (tokens_iff.2 rfl).ofChar_mem_iff hblank hdigit

/-! ### Numbers in brackets -/

/-- A number and a closing bracket, each with blanks before it or not. -/
def ClosesNumber (part : List Char) : Prop :=
  ∃ gap digits gap' : List Char, part = gap ++ (digits ++ (gap' ++ [']'])) ∧
    (∀ c ∈ gap, Text.isBlank c = true) ∧ digits ≠ [] ∧ (∀ c ∈ digits, c.isDigit = true) ∧
    ∀ c ∈ gap', Text.isBlank c = true

theorem exists_closesNumber {offset : Nat} {text digits : List Char} {place stop : Nat}
    {rest : List Lexeme}
    (h : Lexeme.scanFrom offset text = ⟨.number digits, place⟩ :: ⟨.closing, stop⟩ :: rest) :
    ∃ part, ClosesNumber part ∧ part <+: text := by
  obtain ⟨gap, behind, rfl, hgap, -, hbehind, hne, hdigits, -, -⟩ :=
    Lexeme.exists_split (show _ = [] ++ _ from h)
  obtain ⟨gap', others, rfl, hgap', -⟩ := Lexeme.exists_split (show _ = [] ++ _ from hbehind)
  refine ⟨gap ++ (digits ++ (gap' ++ [']'])), ⟨gap, digits, gap', rfl, ?_, hne, hdigits, ?_⟩, ?_⟩
  · exact Lexeme.isBlank_of_scanFrom_eq_nil hgap
  · exact Lexeme.isBlank_of_scanFrom_eq_nil hgap'
  · refine ⟨others, ?_⟩
    simp [Symbol.chars]

theorem symbols_blanks {gap : List Char} (h : ∀ c ∈ gap, Text.isBlank c = true)
    (rest : List Char) : symbols (gap ++ rest) = symbols rest := by
  induction gap with
  | nil => rfl
  | cons c gap ih =>
    obtain ⟨hc, hgap⟩ := List.forall_mem_cons.1 h
    rw [List.cons_append, symbols_blank hc, ih hgap]

theorem ClosesNumber.symbols_eq {part : List Char} (h : ClosesNumber part) (rest : List Char) :
    ∃ digits, symbols (part ++ rest) = .number digits :: .closing :: symbols rest := by
  obtain ⟨gap, digits, gap', rfl, hgap, hne, hdigits, hgap'⟩ := h
  have hclosing : symbols (']' :: rest) = .closing :: symbols rest :=
    symbols_char (by decide) (by decide) rest
  have hbehind : NoDigit (gap' ++ ']' :: rest) := by
    cases gap' with
    | nil => exact noDigit_cons (by decide) rest
    | cons c gap' => exact noDigit_cons (isDigit_of_isBlank (hgap' c List.mem_cons_self)) _
  refine ⟨digits, ?_⟩
  simp only [List.append_assoc, List.singleton_append]
  rw [symbols_blanks hgap, symbols_number hdigits hne hbehind, symbols_blanks hgap', hclosing]

/-! ### What was read before a fault -/

section Items

variable {items : List Item} {text : List Char}

theorem bar_mem_of_bar? (hitems : symbols text = items.flatMap Item.symbols)
    (h : (items.foldl Draft.add {}).bar? ≠ none) : '|' ∈ text := by
  have hmem : Item.bar ∈ items := by
    by_contra hnot
    exact h (Draft.bar?_foldl_add hnot {})
  rw [← ofChar_mem_symbols_iff (by decide) (by decide), hitems]
  exact List.mem_flatMap.2 ⟨.bar, hmem, List.mem_singleton.2 rfl⟩

theorem opening_not_mem (hadmits : Draft.AdmitsAll {} items)
    (hitems : symbols text = items.flatMap Item.symbols)
    (h : (items.foldl Draft.add {}).pointer? = none) : '[' ∉ text := by
  rw [← ofChar_mem_symbols_iff (by decide) (by decide), hitems]
  intro hmem
  obtain ⟨item, hitem, hopening⟩ := List.mem_flatMap.1 hmem
  cases item with
  | value digits => simp [Item.symbols, Symbol.ofChar] at hopening
  | bar => simp [Item.symbols, Symbol.ofChar] at hopening
  | pointed digits =>
    obtain ⟨front, back, rfl⟩ := List.append_of_mem hitem
    have hpointer := (Acceptable.admitsAll_iff.1 hadmits).pointer?_eq
    rw [h] at hpointer
    cases hpointer

theorem exists_pointed_of_pointer? (hitems : symbols text = items.flatMap Item.symbols)
    (h : (items.foldl Draft.add {}).pointer? ≠ none) :
    ∃ before number behind, text = before ++ '[' :: (number ++ behind) ∧ ClosesNumber number := by
  obtain ⟨digits, hmem⟩ : ∃ digits, Item.pointed digits ∈ items := by
    by_contra hnot
    rw [not_exists] at hnot
    exact h (Draft.pointer?_foldl_add hnot {})
  obtain ⟨front, back, rfl⟩ := List.append_of_mem hmem
  rw [List.flatMap_append, List.flatMap_cons] at hitems
  obtain ⟨before, others, hscan, -, hothers⟩ := List.map_eq_append_iff.1 hitems
  obtain ⟨⟨first, offset⟩, others, rfl, hfirst, hothers⟩ := List.map_eq_cons_iff.1 hothers
  obtain ⟨⟨second, place⟩, others, rfl, hsecond, hothers⟩ := List.map_eq_cons_iff.1 hothers
  obtain ⟨⟨third, stop⟩, others, rfl, hthird, -⟩ := List.map_eq_cons_iff.1 hothers
  simp only at hfirst hsecond hthird
  subst hfirst hsecond hthird
  obtain ⟨start, behind, rfl, -, -, hbehind, -⟩ := Lexeme.exists_split hscan
  obtain ⟨number, hnumber, rest, rfl⟩ := exists_closesNumber hbehind
  exact ⟨start, number, rest, rfl, hnumber⟩

end Items

/-! ### The place of a fault -/

/-- What a fault says of the text before its offset and of the text from there on. -/
def Describes : NotationFault → List Char → List Char → Prop
  | .duplicatePointer _, front, back =>
    (∃ rest, back = '[' :: rest) ∧
      ∃ before number behind, front = before ++ '[' :: (number ++ behind) ∧ ClosesNumber number
  | .duplicateBar _, front, back => (∃ rest, back = '|' :: rest) ∧ '|' ∈ front
  | .unterminatedPointer _, front, back =>
    ∃ rest, back = '[' :: rest ∧ '[' ∉ front ∧ ∀ number, ClosesNumber number → ¬number <+: rest
  | .unexpected token _, _, back =>
    ∃ c rest, back = c :: rest ∧ token = [c] ∧
      (c = ']' ∨ Text.isBlank c = false ∧ c.isDigit = false ∧ c ≠ '[' ∧ c ≠ ']' ∧ c ≠ '|')
  | .outOfRange digits _, front, back =>
    ∃ rest, back = digits ++ rest ∧ digits ≠ [] ∧ (∀ c ∈ digits, c.isDigit = true) ∧
      NoDigit front.reverse ∧ NoDigit rest ∧ 255 < Nat.ofDigitChars 10 digits 0

/-- The text is cut at the offset of the fault, as the fault says, and what is before it can be
read. Only a number that stands in brackets has the bracket before it, and then what is before the
bracket can be read. -/
structure Locates (fault : NotationFault) (text front back : String) : Prop where
  split : text = front ++ back
  inside : back ≠ ""
  offset : front.utf8ByteSize = fault.offset
  describes : Describes fault front.toList back.toList
  readable : (∃ tape, read front = .ok tape) ∨
    ∃ digits offset before gap, fault = .outOfRange digits offset ∧
      front = before ++ "[" ++ gap ∧ (∀ c ∈ gap.toList, Text.isBlank c = true) ∧
      ∃ tape, read before = .ok tape

theorem exists_blames_of_read {text : String} {fault : NotationFault}
    (h : read text = .error fault) :
    ∃ items front lexeme rest, Lexeme.scan text = front ++ lexeme :: rest ∧
      front.map Lexeme.symbol = items.flatMap Item.symbols ∧ Draft.AdmitsAll {} items ∧
      (items.foldl Draft.add {}).Blames (lexeme :: rest) fault := by
  obtain ⟨items, front, back, hsplit, hfront, hadmits, hend⟩ :=
    Draft.exists_items {} (Lexeme.scan text)
  rw [read, hsplit, Draft.extend_append_of_admitsAll hadmits hfront] at h
  rcases hend with rfl | ⟨found, hfound⟩
  · cases h
  · rw [Draft.extend_of_blames hfound] at h
    cases h
    cases back with
    | nil => cases hfound
    | cons lexeme rest => exact ⟨items, front, lexeme, rest, hsplit, hfront, hadmits, hfound⟩

theorem Symbol.Fits.chars_ne_nil {before behind : List Char} {symbol : Symbol}
    (h : symbol.Fits before behind) : symbol.chars ≠ [] := by
  cases symbol with
  | number digits => exact h.1
  | opening => exact List.cons_ne_nil _ _
  | closing => exact List.cons_ne_nil _ _
  | bar => exact List.cons_ne_nil _ _
  | stray c => exact List.cons_ne_nil _ _

theorem locates_ofList {fault : NotationFault} {text : String} {front back : List Char}
    (hsplit : text.toList = front ++ back) (hinside : back ≠ [])
    (hoffset : byteSize front = fault.offset) (hdescribes : Describes fault front back)
    (hreadable : (∃ tape, read (String.ofList front) = .ok tape) ∨
      ∃ digits offset before gap, fault = .outOfRange digits offset ∧
        front = before ++ '[' :: gap ∧ (∀ c ∈ gap, Text.isBlank c = true) ∧
        ∃ tape, read (String.ofList before) = .ok tape) :
    Locates fault text (String.ofList front) (String.ofList back) := by
  refine ⟨?_, ?_, ?_, ?_, ?_⟩
  · rw [← String.ofList_append, ← hsplit, String.ofList_toList]
  · intro hempty
    have hlist := congrArg String.toList hempty
    rw [String.toList_ofList] at hlist
    exact hinside hlist
  · rw [utf8ByteSize_ofList, hoffset]
  · rwa [String.toList_ofList, String.toList_ofList]
  · refine hreadable.imp id ?_
    rintro ⟨digits, offset, before, gap, hfault, rfl, hgap, hread⟩
    refine ⟨digits, offset, String.ofList before, String.ofList gap, hfault, ?_, ?_, hread⟩
    · rw [String.ofList_append, String.ofList_cons, String.append_assoc]
      rfl
    · rwa [String.toList_ofList]

section Blames

variable {items : List Item} {before behind : List Char} {lexeme : Lexeme} {rest : List Lexeme}
  {fault : NotationFault}

theorem not_closesNumber {offset : Nat} (hscan : Lexeme.scanFrom offset behind = rest)
    (hrest : ∀ digits place stop others,
      rest ≠ ⟨.number digits, place⟩ :: ⟨.closing, stop⟩ :: others) :
    ∀ number, ClosesNumber number → ¬number <+: behind := by
  rintro number hnumber ⟨others, rfl⟩
  obtain ⟨digits, hsymbols⟩ := hnumber.symbols_eq others
  rw [symbols, map_symbol_scanFrom_eq 0 offset, hscan] at hsymbols
  obtain ⟨⟨first, place⟩, more, rfl, hfirst, hmore⟩ := List.map_eq_cons_iff.1 hsymbols
  obtain ⟨⟨second, stop⟩, most, rfl, hsecond, -⟩ := List.map_eq_cons_iff.1 hmore
  simp only at hfirst hsecond
  subst hfirst hsecond
  exact hrest digits place stop most rfl

theorem describes_outOfRange {digits : List Char}
    (hfits : Symbol.Fits before (.number digits) behind) (hrange : ¬InRange digits)
    (offset : Nat) : Describes (.outOfRange digits offset) before (digits ++ behind) := by
  obtain ⟨hne, hdigits, hfront, hback⟩ := hfits
  exact ⟨behind, rfl, hne, hdigits, hfront, hback, Nat.not_lt.1 hrange⟩

/-- A number that is the next lexeme behind a bracket has nothing but blanks before it. -/
theorem exists_number_behind {digits : List Char} {place stop : Nat}
    (h : Lexeme.scanFrom stop behind = ⟨.number digits, place⟩ :: rest) (before : List Char) :
    ∃ gap others, behind = gap ++ (digits ++ others) ∧ (∀ c ∈ gap, Text.isBlank c = true) ∧
      place = stop + byteSize gap ∧ Symbol.Fits (before ++ '[' :: gap) (.number digits) others := by
  obtain ⟨gap, others, rfl, hgap, hplace, -, hfits⟩ :=
    Lexeme.exists_split (show _ = [] ++ _ from h)
  refine ⟨gap, others, rfl, Lexeme.isBlank_of_scanFrom_eq_nil hgap, hplace, ?_⟩
  rw [List.append_cons]
  apply hfits.append
  intro _ _ _
  rw [List.reverse_append]
  exact noDigit_cons (by decide) _

/-- Every fault but one blames the next lexeme, and what is before that lexeme has been read. -/
theorem exists_locates_of_blames {text : String}
    (htext : text.toList = before ++ (lexeme.symbol.chars ++ behind))
    (hstart : lexeme.start = byteSize before)
    (hbehind : Lexeme.scanFrom lexeme.stop behind = rest)
    (hfits : lexeme.symbol.Fits before behind) (hadmits : Draft.AdmitsAll {} items)
    (hitems : symbols before = items.flatMap Item.symbols)
    (hblames : (items.foldl Draft.add {}).Blames (lexeme :: rest) fault) :
    ∃ front back, Locates fault text front back := by
  have hread : ∃ tape, read (String.ofList before) = .ok tape := by
    refine ⟨_, read_of_items ?_ hadmits⟩
    rwa [String.toList_ofList]
  have hhere : ∀ fault : NotationFault, fault.offset = lexeme.start →
      Describes fault before (lexeme.symbol.chars ++ behind) →
      ∃ front back, Locates fault text front back := by
    intro fault hoffset hdescribes
    refine ⟨_, _, locates_ofList htext ?_ ?_ hdescribes (.inl hread)⟩
    · exact List.append_ne_nil_of_left_ne_nil hfits.chars_ne_nil behind
    · rw [hoffset, hstart]
  cases hblames with
  | number hrange =>
    apply hhere _ rfl
    exact describes_outOfRange hfits hrange _
  | secondPointer hpointer =>
    apply hhere _ rfl
    exact ⟨⟨behind, rfl⟩, exists_pointed_of_pointer? hitems hpointer⟩
  | unnumbered hpointer hrest =>
    apply hhere _ rfl
    refine ⟨behind, rfl, opening_not_mem hadmits hitems hpointer, ?_⟩
    apply not_closesNumber hbehind
    intro digits place stop others
    exact hrest digits place _
  | unterminated hpointer hrange hrest =>
    apply hhere _ rfl
    refine ⟨behind, rfl, opening_not_mem hadmits hitems hpointer, ?_⟩
    apply not_closesNumber hbehind
    intro digits place stop others heq
    exact hrest stop others (List.cons.inj heq).2
  | secondBar hbar =>
    apply hhere _ rfl
    exact ⟨⟨behind, rfl⟩, bar_mem_of_bar? hitems hbar⟩
  | closing =>
    apply hhere _ rfl
    exact ⟨']', behind, rfl, rfl, .inl rfl⟩
  | stray =>
    apply hhere _ rfl
    exact ⟨_, behind, rfl, rfl, .inr hfits⟩
  | pointed hpointer hrange =>
    -- The number is to blame, so the cut comes behind the bracket.
    obtain ⟨gap, others, rfl, hgap, hplace, hnumber⟩ := exists_number_behind hbehind before
    refine ⟨_, _, locates_ofList ?_ ?_ ?_ (describes_outOfRange hnumber hrange _) (.inr ?_)⟩
    · rw [htext]
      simp [Symbol.chars]
    · exact List.append_ne_nil_of_left_ne_nil hnumber.chars_ne_nil others
    · simp only [Lexeme.stop, Symbol.chars, byteSize_cons, byteSize_nil] at hstart hplace
      simp only [NotationFault.offset, hplace, hstart, byteSize_append, byteSize_cons]
      omega
    · exact ⟨_, _, before, gap, rfl, rfl, hgap, hread⟩

end Blames

/-- **A fault lies where it says.** Its offset is that of a character of the text. A second pointer
is an opening bracket behind a number in brackets, and a second bar a bar behind a bar. An
unterminated pointer is the first opening bracket, and no number with a closing bracket follows it.
A token that was not expected is the character there. A value out of range is all the digits there,
and more than 255. The text before the offset can be read, or, for a value in brackets, the text
before the bracket. -/
theorem fault_is_located (text : String) (fault : NotationFault) (h : read text = .error fault) :
    ∃ front back, Locates fault text front back := by
  obtain ⟨items, front, lexeme, rest, hscan, hfront, hadmits, hblames⟩ := exists_blames_of_read h
  obtain ⟨before, behind, htext, hbefore, hstart, hbehind, hfits⟩ := Lexeme.exists_split hscan
  have hitems : symbols before = items.flatMap Item.symbols := by rw [symbols, hbefore, hfront]
  rw [Nat.zero_add] at hstart
  exact exists_locates_of_blames htext hstart hbehind hfits hadmits hitems hblames

/-- A number in brackets is too large, and blanks of three bytes stand before it. -/
theorem wide_blank_before_number :
    read "7\u3000| [\u3000256]" = .error (.outOfRange ['2', '5', '6'] 10) ∧
      ∃ front back, Locates (.outOfRange ['2', '5', '6'] 10) "7\u3000| [\u3000256]" front back := by
  have htext : "7\u3000| [\u3000256]".toList =
      ['7', '\u3000', '|', ' ', '[', '\u3000', '2', '5', '6', ']'] := by decide
  have hscan : Lexeme.scan "7\u3000| [\u3000256]" =
      [⟨.number ['7'], 0⟩, ⟨.bar, 4⟩, ⟨.opening, 6⟩, ⟨.number ['2', '5', '6'], 10⟩,
        ⟨.closing, 13⟩] := by
    rw [Lexeme.scan, htext]
    simp +decide [Lexeme.scanFrom_cons, Lexeme.scanFrom_nil]
  have hread : read "7\u3000| [\u3000256]" = .error (.outOfRange ['2', '5', '6'] 10) := by
    rw [read, hscan]
    rfl
  exact ⟨hread, fault_is_located _ _ hread⟩

end Notation

end ByteTape
