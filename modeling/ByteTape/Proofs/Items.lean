import ByteTape.Notation.Reader

/-!
# Items of the tape notation

Where its lexemes stand in a text matters for faults only. Without their places the lexemes of a
tape are a row of items: a value, a value in brackets, or a bar. Reading goes through them item by
item, as long as no number is too large and neither brackets nor a bar come twice.
-/

namespace ByteTape.Notation

/-! ### Lexemes without their places -/

/-- What the lexemes of a text are. -/
def symbols (text : List Char) : List Symbol := (Lexeme.scanFrom 0 text).map Lexeme.symbol

theorem map_symbol_scanFrom_eq (offset offset' : Nat) (text : List Char) :
    (Lexeme.scanFrom offset text).map Lexeme.symbol =
      (Lexeme.scanFrom offset' text).map Lexeme.symbol := by
  fun_induction Lexeme.scanFrom offset text generalizing offset' with
  | case1 offset => rw [Lexeme.scanFrom_nil]
  | case2 offset c rest hblank ih =>
    rw [Lexeme.scanFrom_cons, if_pos hblank]
    exact ih _
  | case3 offset c rest hblank hdigit digits ih =>
    rw [Lexeme.scanFrom_cons, if_neg hblank, if_pos hdigit, List.map_cons, List.map_cons, ih]
  | case4 offset c rest hblank hdigit ih =>
    rw [Lexeme.scanFrom_cons, if_neg hblank, if_neg hdigit, List.map_cons, List.map_cons, ih]

theorem symbols_nil : symbols [] = [] := by
  rw [symbols, Lexeme.scanFrom_nil, List.map_nil]

theorem Lexeme.scanFrom_blank {c : Char} (h : Text.isBlank c = true) (offset : Nat)
    (rest : List Char) : scanFrom offset (c :: rest) = scanFrom (offset + c.utf8Size) rest := by
  rw [scanFrom_cons, if_pos h]

theorem Lexeme.scanFrom_char {c : Char} (hblank : Text.isBlank c = false)
    (hdigit : c.isDigit = false) (offset : Nat) (rest : List Char) :
    scanFrom offset (c :: rest) = ⟨.ofChar c, offset⟩ :: scanFrom (offset + c.utf8Size) rest := by
  rw [scanFrom_cons, if_neg (Bool.eq_false_iff.1 hblank), if_neg (Bool.eq_false_iff.1 hdigit)]

theorem symbols_blank {c : Char} (h : Text.isBlank c = true) (rest : List Char) :
    symbols (c :: rest) = symbols rest := by
  rw [symbols, Lexeme.scanFrom_blank h]
  exact map_symbol_scanFrom_eq _ _ rest

theorem symbols_char {c : Char} (hblank : Text.isBlank c = false) (hdigit : c.isDigit = false)
    (rest : List Char) : symbols (c :: rest) = .ofChar c :: symbols rest := by
  rw [symbols, Lexeme.scanFrom_char hblank hdigit, List.map_cons]
  exact congrArg _ (map_symbol_scanFrom_eq _ _ rest)

/-- The text does not go on with a digit. -/
def NoDigit (rest : List Char) : Prop := ∀ c ∈ rest.head?, c.isDigit = false

theorem noDigit_nil : NoDigit [] := by
  intro c hc
  cases hc

theorem noDigit_cons {c : Char} (h : c.isDigit = false) (rest : List Char) :
    NoDigit (c :: rest) := by
  intro d hd
  cases hd
  exact h

theorem isBlank_of_isDigit {c : Char} (h : c.isDigit = true) : Text.isBlank c = false := by
  simp only [Char.isDigit, Bool.and_eq_true, decide_eq_true_eq] at h
  have hlow : 48 ≤ c.toNat := h.1
  have hhigh : c.toNat ≤ 57 := h.2
  simp only [Text.isBlank, Bool.or_eq_false_iff, Bool.and_eq_false_iff, decide_eq_false_iff_not,
    beq_eq_false_iff_ne]
  omega

theorem takeWhile_isDigit {digits rest : List Char} (hdigits : ∀ c ∈ digits, c.isDigit = true)
    (hrest : NoDigit rest) :
    (digits ++ rest).takeWhile Char.isDigit = digits ∧
      (digits ++ rest).dropWhile Char.isDigit = rest := by
  rw [List.takeWhile_append_of_pos hdigits, List.dropWhile_append_of_pos hdigits]
  cases rest with
  | nil => exact ⟨List.append_nil digits, rfl⟩
  | cons c rest =>
    have hc : ¬c.isDigit = true := Bool.eq_false_iff.1 (hrest c rfl)
    rw [List.takeWhile_cons_of_neg hc, List.dropWhile_cons_of_neg hc, List.append_nil]
    exact ⟨rfl, rfl⟩

theorem Lexeme.scanFrom_number {digits rest : List Char}
    (hdigits : ∀ c ∈ digits, c.isDigit = true) (hne : digits ≠ []) (hrest : NoDigit rest)
    (offset : Nat) :
    scanFrom offset (digits ++ rest) =
      ⟨.number digits, offset⟩ :: scanFrom (offset + byteSize digits) rest := by
  obtain ⟨c, digits, rfl⟩ := List.exists_cons_of_ne_nil hne
  have hc := hdigits c List.mem_cons_self
  obtain ⟨htake, hdrop⟩ :=
    takeWhile_isDigit (fun d hd => hdigits d (List.mem_cons_of_mem c hd)) hrest
  rw [List.cons_append, scanFrom_cons, if_neg (Bool.eq_false_iff.1 (isBlank_of_isDigit hc)),
    if_pos hc, htake, hdrop]

theorem symbols_number {digits rest : List Char} (hdigits : ∀ c ∈ digits, c.isDigit = true)
    (hne : digits ≠ []) (hrest : NoDigit rest) :
    symbols (digits ++ rest) = .number digits :: symbols rest := by
  rw [symbols, Lexeme.scanFrom_number hdigits hne hrest, List.map_cons]
  exact congrArg _ (map_symbol_scanFrom_eq _ _ rest)

/-! ### Items -/

/-- A part of the notation that can be read by itself. -/
inductive Item where
  | value (digits : List Char)
  | pointed (digits : List Char)
  | bar
  deriving DecidableEq, Repr

def Item.symbols : Item → List Symbol
  | .value digits => [.number digits]
  | .pointed digits => [.opening, .number digits, .closing]
  | .bar => [.bar]

/-- The number that digits denote is a byte. -/
def InRange (digits : List Char) : Prop := Nat.ofDigitChars 10 digits 0 < 256

def byte (digits : List Char) : UInt8 := UInt8.ofNat (Nat.ofDigitChars 10 digits 0)

theorem cell_of_inRange {digits : List Char} (h : InRange digits) (offset : Nat) :
    cell digits offset = .ok (byte digits) :=
  if_pos h

theorem cell_of_not_inRange {digits : List Char} (h : ¬InRange digits) (offset : Nat) :
    cell digits offset = .error (.outOfRange digits offset) :=
  if_neg h

namespace Draft

def add (draft : Draft) : Item → Draft
  | .value digits => draft.push (byte digits)
  | .pointed digits => draft.markPointer.push (byte digits)
  | .bar => draft.markBar

/-- The item can be read next. -/
def Admits (draft : Draft) : Item → Prop
  | .value digits => InRange digits
  | .pointed digits => draft.pointer? = none ∧ InRange digits
  | .bar => draft.bar? = none

/-- The items can be read one after the other. -/
def AdmitsAll : Draft → List Item → Prop
  | _, [] => True
  | draft, item :: items => draft.Admits item ∧ (draft.add item).AdmitsAll items

theorem admitsAll_append {draft : Draft} {front back : List Item} :
    draft.AdmitsAll (front ++ back) ↔
      draft.AdmitsAll front ∧ (front.foldl add draft).AdmitsAll back := by
  induction front generalizing draft with
  | nil => simp [AdmitsAll]
  | cons item front ih =>
    rw [List.cons_append, AdmitsAll, AdmitsAll, ih, List.foldl_cons, and_assoc]

theorem extend_of_admits {draft : Draft} {item : Item} (h : draft.Admits item)
    {front : List Lexeme} (hfront : front.map Lexeme.symbol = item.symbols) (rest : List Lexeme) :
    draft.extend (front ++ rest) = (draft.add item).extend rest := by
  cases item with
  | value digits =>
    obtain ⟨⟨symbol, offset⟩, rfl, hsymbol⟩ := List.map_eq_singleton_iff.1 hfront
    simp only at hsymbol
    subst hsymbol
    rw [List.singleton_append, extend, cell_of_inRange h]
    rfl
  | pointed digits =>
    obtain ⟨⟨first, offset⟩, others, rfl, hfirst, hothers⟩ := List.map_eq_cons_iff.1 hfront
    obtain ⟨⟨second, place⟩, more, rfl, hsecond, hmore⟩ := List.map_eq_cons_iff.1 hothers
    obtain ⟨⟨third, stop⟩, rfl, hthird⟩ := List.map_eq_singleton_iff.1 hmore
    simp only at hfirst hsecond hthird
    subst hfirst hsecond hthird
    simp only [List.cons_append, List.nil_append, extend, h.1, cell_of_inRange h.2]
    rfl
  | bar =>
    obtain ⟨⟨symbol, offset⟩, rfl, hsymbol⟩ := List.map_eq_singleton_iff.1 hfront
    simp only at hsymbol
    subst hsymbol
    rw [List.singleton_append, extend, show draft.bar? = none from h]
    rfl

theorem extend_append_of_admitsAll {draft : Draft} {items : List Item} (h : draft.AdmitsAll items)
    {front : List Lexeme} (hfront : front.map Lexeme.symbol = items.flatMap Item.symbols)
    (back : List Lexeme) : draft.extend (front ++ back) = (items.foldl add draft).extend back := by
  induction items generalizing draft front with
  | nil =>
    obtain rfl := List.map_eq_nil_iff.1 hfront
    rfl
  | cons item items ih =>
    rw [List.flatMap_cons] at hfront
    obtain ⟨first, others, rfl, hfirst, hothers⟩ := List.map_eq_append_iff.1 hfront
    rw [List.append_assoc, extend_of_admits h.1 hfirst, List.foldl_cons]
    exact ih h.2 hothers

theorem extend_of_admitsAll {draft : Draft} {items : List Item} (h : draft.AdmitsAll items)
    {lexemes : List Lexeme}
    (hlexemes : lexemes.map Lexeme.symbol = items.flatMap Item.symbols) :
    draft.extend lexemes = .ok (items.foldl add draft) := by
  have hall := extend_append_of_admitsAll h hlexemes []
  rw [List.append_nil] at hall
  rw [hall, extend]

end Draft

theorem read_of_items {text : String} {items : List Item}
    (hitems : symbols text.toList = items.flatMap Item.symbols)
    (h : Draft.AdmitsAll {} items) : read text = .ok (items.foldl Draft.add {}).tape := by
  rw [read, Lexeme.scan, Draft.extend_of_admitsAll h hitems]
  rfl

end ByteTape.Notation
