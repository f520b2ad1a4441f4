import Mathlib.Data.Nat.Init
import Mathlib.Logic.ExistsUnique
import Mathlib.Tactic.Tauto
import ByteTape.Proofs.Items

/-!
# The grammar of the tape notation

Reading accepts the rows of items in which numbers are bytes and neither brackets nor a bar come
twice, and nothing else. What is read is said by the items alone: the numbers in their order, index
0 where the bar is, and the pointer on the number in brackets.
-/

namespace ByteTape.Notation

/-! ### Tokens -/

/-- The symbols of a text: blanks are dropped, digits are taken together as far as they go, and
every other character is a symbol by itself. -/
inductive Tokens : List Char → List Symbol → Prop where
  | nil : Tokens [] []
  | blank {c : Char} {rest : List Char} {symbols : List Symbol} (hblank : Text.isBlank c = true)
      (tail : Tokens rest symbols) : Tokens (c :: rest) symbols
  | number {digits rest : List Char} {symbols : List Symbol}
      (hdigits : ∀ c ∈ digits, c.isDigit = true) (hne : digits ≠ []) (hrest : NoDigit rest)
      (tail : Tokens rest symbols) : Tokens (digits ++ rest) (.number digits :: symbols)
  | char {c : Char} {rest : List Char} {symbols : List Symbol} (hblank : Text.isBlank c = false)
      (hdigit : c.isDigit = false) (tail : Tokens rest symbols) :
      Tokens (c :: rest) (.ofChar c :: symbols)

theorem noDigit_dropWhile (text : List Char) : NoDigit (text.dropWhile Char.isDigit) := by
  intro c hc
  have hhead := List.head?_dropWhile_not Char.isDigit text
  rw [hc] at hhead
  simpa using hhead

theorem tokens_scanFrom (offset : Nat) (text : List Char) :
    Tokens text ((Lexeme.scanFrom offset text).map Lexeme.symbol) := by
  fun_induction Lexeme.scanFrom offset text with
  | case1 offset => exact .nil
  | case2 offset c rest hblank ih => exact .blank hblank ih
  | case3 offset c rest hblank hdigit digits ih =>
    have hsplit : c :: rest = digits ++ rest.dropWhile Char.isDigit :=
      congrArg (c :: ·) List.takeWhile_append_dropWhile.symm
    rw [hsplit, List.map_cons]
    refine .number ?_ (List.cons_ne_nil _ _) (noDigit_dropWhile rest) ih
    refine List.forall_mem_cons.2 ⟨hdigit, fun d hd => ?_⟩
    exact List.all_eq_true.1 List.all_takeWhile d hd
  | case4 offset c rest hblank hdigit ih =>
    exact .char (Bool.eq_false_iff.2 hblank) (Bool.eq_false_iff.2 hdigit) ih

/-- Every text has its symbols, and no others. -/
theorem tokens_iff {text : List Char} {s : List Symbol} : Tokens text s ↔ s = symbols text := by
  constructor
  · intro h
    induction h with
    | nil => rw [symbols_nil]
    | blank hblank _ ih => rw [symbols_blank hblank, ih]
    | number hdigits hne hrest _ ih => rw [symbols_number hdigits hne hrest, ih]
    | char hblank hdigit _ ih => rw [symbols_char hblank hdigit, ih]
  · rintro rfl
    exact tokens_scanFrom 0 text

/-! ### Rows of items -/

namespace Item

/-- The number of an item, as written. -/
def digits? : Item → Option (List Char)
  | .value digits => some digits
  | .pointed digits => some digits
  | .bar => none

def isPointed : Item → Bool
  | .value _ => false
  | .pointed _ => true
  | .bar => false

end Item

/-- The numbers of a row of items, in brackets or not. -/
def numbers (items : List Item) : List (List Char) := items.filterMap Item.digits?

@[simp]
theorem numbers_nil : numbers [] = [] := rfl

@[simp]
theorem numbers_value (digits : List Char) (items : List Item) :
    numbers (.value digits :: items) = digits :: numbers items := rfl

@[simp]
theorem numbers_pointed (digits : List Char) (items : List Item) :
    numbers (.pointed digits :: items) = digits :: numbers items := rfl

@[simp]
theorem numbers_bar (items : List Item) : numbers (.bar :: items) = numbers items := rfl

/-- All numbers are bytes, and neither brackets nor a bar come twice. -/
structure Acceptable (items : List Item) : Prop where
  inRange : ∀ digits ∈ numbers items, InRange digits
  pointer : items.countP Item.isPointed ≤ 1
  bar : items.count .bar ≤ 1

/-- The index of the first number, which is below 0 by the count of numbers before the bar. -/
def firstIndex (items : List Item) : Int :=
  if .bar ∈ items then -((numbers (items.takeWhile (· ≠ .bar))).length : Int) else 0

/-- The tape has the numbers of the items side by side, and nothing else. -/
structure Denotes (items : List Item) (tape : Tape) : Prop where
  cells : ∀ (place : Nat) (digits : List Char), (numbers items)[place]? = some digits →
    (tape.get (firstIndex items + place)).toNat = Nat.ofDigitChars 10 digits 0
  elsewhere : ∀ index,
    index < firstIndex items ∨ firstIndex items + (numbers items).length ≤ index →
    tape.get index = 0
  pointed : ∀ front digits back, items = front ++ .pointed digits :: back →
    tape.pointer = firstIndex items + (numbers front).length
  unpointed : (∀ digits, .pointed digits ∉ items) → tape.pointer = 0

/-! ### Reading item by item -/

namespace Draft

/-- What is wrong with the next lexemes if they do not begin with an item that can be read. -/
inductive Blames (draft : Draft) : List Lexeme → NotationFault → Prop where
  | number {digits : List Char} {offset : Nat} {rest : List Lexeme} (hrange : ¬InRange digits) :
      Blames draft (⟨.number digits, offset⟩ :: rest) (.outOfRange digits offset)
  | secondPointer {offset : Nat} {rest : List Lexeme} (hpointer : draft.pointer? ≠ none) :
      Blames draft (⟨.opening, offset⟩ :: rest) (.duplicatePointer offset)
  | pointed {digits : List Char} {offset place : Nat} {rest : List Lexeme}
      (hpointer : draft.pointer? = none) (hrange : ¬InRange digits) :
      Blames draft (⟨.opening, offset⟩ :: ⟨.number digits, place⟩ :: rest)
        (.outOfRange digits place)
  | unnumbered {offset : Nat} {rest : List Lexeme} (hpointer : draft.pointer? = none)
      (hrest : ∀ digits place others, rest ≠ ⟨.number digits, place⟩ :: others) :
      Blames draft (⟨.opening, offset⟩ :: rest) (.unterminatedPointer offset)
  | unterminated {digits : List Char} {offset place : Nat} {rest : List Lexeme}
      (hpointer : draft.pointer? = none) (hrange : InRange digits)
      (hrest : ∀ stop others, rest ≠ ⟨.closing, stop⟩ :: others) :
      Blames draft (⟨.opening, offset⟩ :: ⟨.number digits, place⟩ :: rest)
        (.unterminatedPointer offset)
  | secondBar {offset : Nat} {rest : List Lexeme} (hbar : draft.bar? ≠ none) :
      Blames draft (⟨.bar, offset⟩ :: rest) (.duplicateBar offset)
  | closing {offset : Nat} {rest : List Lexeme} :
      Blames draft (⟨.closing, offset⟩ :: rest) (.unexpected [']'] offset)
  | stray {c : Char} {offset : Nat} {rest : List Lexeme} :
      Blames draft (⟨.stray c, offset⟩ :: rest) (.unexpected [c] offset)

theorem extend_of_blames {draft : Draft} {lexemes : List Lexeme} {fault : NotationFault}
    (h : draft.Blames lexemes fault) : draft.extend lexemes = .error fault := by
  cases h with
  | number hrange =>
    rw [extend, cell_of_not_inRange hrange]
    rfl
  | secondPointer hpointer =>
    rw [extend.eq_def]
    exact if_pos (Option.isSome_iff_ne_none.2 hpointer)
  | pointed hpointer hrange =>
    simp only [extend, hpointer, cell_of_not_inRange hrange]
    rfl
  | @unnumbered offset rest hpointer hrest =>
    rw [extend.eq_def]
    simp only [hpointer, Option.isSome_none, Bool.false_eq_true, if_false]
  | @unterminated digits offset place rest hpointer hrange hrest =>
    rw [extend.eq_def]
    simp only [hpointer, Option.isSome_none, Bool.false_eq_true, if_false, cell_of_inRange hrange,
      bind, Except.bind]
  | secondBar hbar => rw [extend, if_pos (Option.isSome_iff_ne_none.2 hbar)]
  | closing => rw [extend]; rfl
  | stray => rw [extend]

theorem admits_or_blames (draft : Draft) (lexeme : Lexeme) (rest : List Lexeme) :
    (∃ item front back, lexeme :: rest = front ++ back ∧
      front.map Lexeme.symbol = Item.symbols item ∧ draft.Admits item) ∨
    ∃ fault, draft.Blames (lexeme :: rest) fault := by
  obtain ⟨symbol, offset⟩ := lexeme
  cases symbol with
  | number digits =>
    by_cases hrange : InRange digits
    · exact .inl ⟨.value digits, [_], rest, rfl, rfl, hrange⟩
    · exact .inr ⟨_, .number hrange⟩
  | opening =>
    by_cases hpointer : draft.pointer? = none
    · by_cases hnumber : ∃ digits place others, rest = ⟨.number digits, place⟩ :: others
      · obtain ⟨digits, place, others, rfl⟩ := hnumber
        by_cases hrange : InRange digits
        · by_cases hclosing : ∃ stop back, others = ⟨.closing, stop⟩ :: back
          · obtain ⟨stop, back, rfl⟩ := hclosing
            exact .inl ⟨.pointed digits, [_, _, _], back, rfl, rfl, hpointer, hrange⟩
          · refine .inr ⟨_, .unterminated hpointer hrange fun stop back heq => ?_⟩
            exact hclosing ⟨stop, back, heq⟩
        · exact .inr ⟨_, .pointed hpointer hrange⟩
      · refine .inr ⟨_, .unnumbered hpointer fun digits place others heq => ?_⟩
        exact hnumber ⟨digits, place, others, heq⟩
    · exact .inr ⟨_, .secondPointer hpointer⟩
  | closing => exact .inr ⟨_, .closing⟩
  | bar =>
    by_cases hbar : draft.bar? = none
    · exact .inl ⟨.bar, [_], rest, rfl, rfl, hbar⟩
    · exact .inr ⟨_, .secondBar hbar⟩
  | stray c => exact .inr ⟨_, .stray⟩

/-- Items are read as long as there are some, up to the end or to a fault. -/
theorem exists_items (draft : Draft) (lexemes : List Lexeme) :
    ∃ items front back, lexemes = front ++ back ∧
      front.map Lexeme.symbol = items.flatMap Item.symbols ∧ draft.AdmitsAll items ∧
      (back = [] ∨ ∃ fault, (items.foldl add draft).Blames back fault) := by
  -- An item takes one lexeme or three.
  induction hlength : lexemes.length using Nat.strong_induction_on generalizing draft lexemes with
  | _ length ih =>
  cases lexemes with
  | nil => exact ⟨[], [], [], rfl, rfl, trivial, .inl rfl⟩
  | cons lexeme rest =>
    rcases draft.admits_or_blames lexeme rest with
      ⟨item, first, others, hsplit, hfirst, hadmits⟩ | ⟨fault, hfault⟩
    · have hne : first ≠ [] := by
        rintro rfl
        cases item <;> cases hfirst
      have hlt : others.length < length := by
        have hpositive := List.length_pos_iff.2 hne
        rw [← hlength, hsplit, List.length_append]
        omega
      obtain ⟨items, front, back, rfl, hfront, hall, hend⟩ :=
        ih others.length hlt (draft.add item) others rfl
      refine ⟨item :: items, first ++ front, back, ?_, ?_, ⟨hadmits, hall⟩, hend⟩
      · rw [hsplit, List.append_assoc]
      · rw [List.map_append, hfirst, hfront, List.flatMap_cons]
    · exact ⟨[], [], lexeme :: rest, rfl, rfl, trivial, .inr ⟨fault, hfault⟩⟩

/-! ### What has been read -/

/-- A mark may be made if it has not been made yet, and then it may not be made again. -/
theorem mark_iff (mark? : Option Nat) (count : Nat) :
    mark? = none ∧ 1 + count ≤ 1 ↔ (if mark?.isSome then 1 else 0) + (count + 1) ≤ 1 := by
  cases mark? with
  | none =>
    simp only [Option.isSome_none, Bool.false_eq_true, if_false, true_and]
    omega
  | some place =>
    simp only [reduceCtorEq, false_and, Option.isSome_some, if_true, false_iff]
    omega

theorem admitsAll_iff {draft : Draft} {items : List Item} :
    draft.AdmitsAll items ↔
      (∀ digits ∈ numbers items, InRange digits) ∧
      (if draft.pointer?.isSome then 1 else 0) + items.countP Item.isPointed ≤ 1 ∧
      (if draft.bar?.isSome then 1 else 0) + items.count .bar ≤ 1 := by
  induction items generalizing draft with
  | nil => cases draft.pointer? <;> cases draft.bar? <;> simp [AdmitsAll]
  | cons item items ih =>
    rw [AdmitsAll, ih]
    cases item with
    | value digits =>
      rw [numbers_value, List.forall_mem_cons, List.countP_cons_of_neg Bool.false_ne_true,
        List.count_cons_of_ne (by simp), and_assoc]
      rfl
    | pointed digits =>
      rw [numbers_pointed, List.forall_mem_cons, List.countP_cons_of_pos rfl,
        List.count_cons_of_ne (by simp), ← mark_iff]
      simp only [Admits, add, push, markPointer, Option.isSome_some, if_true]
      tauto
    | bar =>
      rw [numbers_bar, List.countP_cons_of_neg Bool.false_ne_true, List.count_cons_self, ← mark_iff]
      simp only [Admits, add, markBar, Option.isSome_some, if_true]
      tauto

theorem cells_foldl_add (draft : Draft) (items : List Item) :
    (items.foldl add draft).cells.toList = draft.cells.toList ++ (numbers items).map byte := by
  induction items generalizing draft with
  | nil => simp
  | cons item items ih =>
    rw [List.foldl_cons, ih]
    cases item <;> simp [add, push, markPointer, markBar]

theorem size_foldl_add (items : List Item) :
    (items.foldl add {}).cells.size = (numbers items).length := by
  rw [← Array.length_toList, cells_foldl_add, List.length_append, List.length_map]
  exact Nat.zero_add _

theorem pointer?_foldl_add {items : List Item} (h : ∀ digits, .pointed digits ∉ items)
    (draft : Draft) : (items.foldl add draft).pointer? = draft.pointer? := by
  induction items generalizing draft with
  | nil => rfl
  | cons item items ih =>
    rw [List.foldl_cons, ih fun digits hmem => h digits (List.mem_cons_of_mem _ hmem)]
    cases item with
    | value digits => rfl
    | pointed digits => exact absurd List.mem_cons_self (h digits)
    | bar => rfl

theorem pointer_tape_of_eq_some {draft : Draft} {place : Nat} (h : draft.pointer? = some place) :
    draft.tape.pointer = place + -((draft.bar?.getD 0 : Nat) : Int) := by
  unfold tape
  simp only [h]
  rfl

theorem pointer_tape_of_eq_none {draft : Draft} (h : draft.pointer? = none) :
    draft.tape.pointer = 0 := by
  unfold tape
  simp only [h]
  rfl

theorem bar?_foldl_add {items : List Item} (h : .bar ∉ items) (draft : Draft) :
    (items.foldl add draft).bar? = draft.bar? := by
  induction items generalizing draft with
  | nil => rfl
  | cons item items ih =>
    rw [List.foldl_cons, ih fun hmem => h (List.mem_cons_of_mem _ hmem)]
    cases item with
    | value digits => rfl
    | pointed digits => rfl
    | bar => exact absurd List.mem_cons_self h

end Draft

namespace Acceptable

variable {items : List Item}

theorem admitsAll_iff : Draft.AdmitsAll {} items ↔ Acceptable items := by
  rw [Draft.admitsAll_iff]
  simp only [Option.isSome_none, Bool.false_eq_true, if_false, Nat.zero_add]
  constructor
  · rintro ⟨hrange, hpointer, hbar⟩
    exact ⟨hrange, hpointer, hbar⟩
  · rintro ⟨hrange, hpointer, hbar⟩
    exact ⟨hrange, hpointer, hbar⟩

theorem pointer?_eq {front back : List Item} {digits : List Char}
    (h : Acceptable (front ++ .pointed digits :: back)) :
    ((front ++ .pointed digits :: back).foldl Draft.add {}).pointer? =
      some (numbers front).length := by
  have hback : ∀ digits', .pointed digits' ∉ back := by
    intro digits' hmem
    have hpositive : 0 < back.countP Item.isPointed := List.countP_pos_iff.2 ⟨_, hmem, rfl⟩
    have hcount := h.pointer
    rw [List.countP_append, List.countP_cons] at hcount
    simp only [Item.isPointed, if_true] at hcount
    omega
  rw [List.foldl_append, List.foldl_cons, Draft.pointer?_foldl_add hback, ← Draft.size_foldl_add]
  rfl

theorem firstIndex_eq (h : Acceptable items) :
    -(((items.foldl Draft.add {}).bar?.getD 0 : Nat) : Int) = firstIndex items := by
  unfold firstIndex
  split
  · rename_i hmem
    obtain ⟨front, back, rfl, hfront⟩ := List.eq_append_cons_of_mem hmem
    have hback : .bar ∉ back := by
      intro hmem
      have hpositive := List.count_pos_iff.2 hmem
      have hcount := h.bar
      rw [List.count_append, List.count_cons_self] at hcount
      omega
    have htake : (front ++ .bar :: back).takeWhile (· ≠ .bar) = front := by
      have hall : ∀ item ∈ front, decide (item ≠ Item.bar) = true := by
        intro item hitem
        exact decide_eq_true fun heq => hfront (heq ▸ hitem)
      rw [List.takeWhile_append_of_pos hall, List.takeWhile_cons_of_neg (by simp), List.append_nil]
    rw [htake, List.foldl_append, List.foldl_cons, Draft.bar?_foldl_add hback,
      ← Draft.size_foldl_add]
    rfl
  · rename_i hmem
    rw [Draft.bar?_foldl_add hmem]
    rfl

theorem denotes (h : Acceptable items) : Denotes items (items.foldl Draft.add {}).tape := by
  have hcells : (items.foldl Draft.add {}).cells.toList = (numbers items).map byte :=
    Draft.cells_foldl_add {} items
  have hget : ∀ index, (items.foldl Draft.add {}).tape.get index =
      if firstIndex items ≤ index ∧ index < firstIndex items + (numbers items).length then
        ((numbers items).map byte).getD (index - firstIndex items).toNat 0
      else 0 := by
    intro index
    rw [← h.firstIndex_eq, ← hcells, ← Draft.size_foldl_add, ← Array.length_toList]
    exact Tape.get_ofCells _ _ _ index
  refine ⟨?_, ?_, ?_, ?_⟩
  · intro place digits hplace
    obtain ⟨hlt, -⟩ := List.getElem?_eq_some_iff.1 hplace
    have hoffset : (firstIndex items + place - firstIndex items).toNat = place := by omega
    rw [hget, if_pos (by omega), hoffset, List.getD_eq_getElem?_getD, List.getElem?_map, hplace]
    exact UInt8.toNat_ofNat_of_lt' (h.inRange digits (List.mem_of_getElem? hplace))
  · intro index hindex
    rw [hget, if_neg (by omega)]
  · rintro front digits back rfl
    rw [Draft.pointer_tape_of_eq_some h.pointer?_eq, h.firstIndex_eq, Int.add_comm]
  · intro hnone
    exact Draft.pointer_tape_of_eq_none (Draft.pointer?_foldl_add hnone {})

end Acceptable

/-! ### Texts -/

theorem exists_items_of_read {text : String} {tape : Tape} (h : read text = .ok tape) :
    ∃ items, symbols text.toList = items.flatMap Item.symbols ∧ Acceptable items := by
  obtain ⟨items, front, back, hsplit, hfront, hadmits, hend⟩ :=
    Draft.exists_items {} (Lexeme.scan text)
  refine ⟨items, ?_, Acceptable.admitsAll_iff.1 hadmits⟩
  rcases hend with rfl | ⟨fault, hfault⟩
  · rw [List.append_nil] at hsplit
    rw [← hfront, ← hsplit]
    rfl
  · rw [read, hsplit, Draft.extend_append_of_admitsAll hadmits hfront,
      Draft.extend_of_blames hfault] at h
    cases h

theorem read_of_acceptable {text : String} {items : List Item} (h : Acceptable items)
    (hitems : symbols text.toList = items.flatMap Item.symbols) :
    read text = .ok (items.foldl Draft.add {}).tape :=
  read_of_items hitems (Acceptable.admitsAll_iff.2 h)

/-- **Reading follows the grammar.** A text has one row of symbols. It is read exactly if they are
those of items, each a byte, a byte in brackets or a bar, with brackets and a bar once at most. The
tape then has the numbers in their order, as many of them below index 0 as stand before the bar, and
0 elsewhere; its pointer is on the number in brackets, or else at index 0. So texts with the same
symbols are read as the same tape. -/
theorem reading_follows_grammar (text : String) :
    (∃! s, Tokens text.toList s) ∧
    ((∃ tape, read text = .ok tape) ↔
      ∃ items, Tokens text.toList (items.flatMap Item.symbols) ∧ Acceptable items) ∧
    (∀ items, Tokens text.toList (items.flatMap Item.symbols) → Acceptable items →
      ∃ tape, read text = .ok tape ∧ Denotes items tape) ∧
    ∀ (other : String) (s : List Symbol), Tokens text.toList s → Tokens other.toList s →
      ∀ tape, read text = .ok tape → read other = .ok tape := by
  simp only [tokens_iff]
  refine ⟨⟨_, rfl, fun s hs => hs⟩, ⟨?_, ?_⟩, ?_, ?_⟩
  · rintro ⟨tape, htape⟩
    obtain ⟨items, hitems, hacceptable⟩ := exists_items_of_read htape
    exact ⟨items, hitems.symm, hacceptable⟩
  · rintro ⟨items, hitems, hacceptable⟩
    exact ⟨_, read_of_acceptable hacceptable hitems.symm⟩
  · intro items hitems hacceptable
    exact ⟨_, read_of_acceptable hacceptable hitems.symm, hacceptable.denotes⟩
  · rintro other s htext hother tape htape
    obtain ⟨items, hitems, hacceptable⟩ := exists_items_of_read htape
    rw [read_of_acceptable hacceptable hitems] at htape
    rw [← htape]
    exact read_of_acceptable hacceptable (hother.symm.trans (htext.trans hitems))

end ByteTape.Notation
