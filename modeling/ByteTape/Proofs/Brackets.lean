import Mathlib.Data.List.Basic
import Mathlib.Order.Bounds.Basic

/-!
# Brackets in a sequence

Sequences of any kind in which one element opens a loop and another one closes it. `Nested` says by
a grammar when loops nest, and `Pairs` which places belong together. Counting gives the same:
`depth?` reads a sequence once and keeps how many loops are open. Every sequence either nests, or
has a first closing element without a partner, or a last opening element without one, and the places
of these are the ends of the parts into which `nested_cases` splits it.
-/

namespace ByteTape

/-- The elements that open and close a loop. -/
structure Brackets (α : Type) where
  opening : α
  closing : α
  distinct : opening ≠ closing

namespace Brackets

variable {α : Type}

inductive Nested (b : Brackets α) : List α → Prop where
  | nil : Nested b []
  | plain {x : α} {rest : List α} (hopening : x ≠ b.opening) (hclosing : x ≠ b.closing)
      (tail : Nested b rest) : Nested b (x :: rest)
  | loop {body rest : List α} (inner : Nested b body) (tail : Nested b rest) :
      Nested b (b.opening :: (body ++ b.closing :: rest))

/-- The loop that opens at place `i` closes at place `j`. -/
def Pairs (b : Brackets α) (l : List α) (i j : Nat) : Prop :=
  ∃ front body back, l = front ++ b.opening :: (body ++ b.closing :: back) ∧ b.Nested body ∧
    front.length = i ∧ i + 1 + body.length = j

/-- A loop is closed at place `j` that was not opened. -/
def Unmatched (b : Brackets α) (l : List α) (j : Nat) : Prop :=
  l[j]? = some b.closing ∧ ∀ i, ¬b.Pairs l i j

/-- A loop is opened at place `i` and never closed. -/
def Unclosed (b : Brackets α) (l : List α) (i : Nat) : Prop :=
  l[i]? = some b.opening ∧ ∀ j, ¬b.Pairs l i j

variable {b : Brackets α}

theorem exists_eq_append_of_getElem? {l : List α} {place : Nat} {x : α} (h : l[place]? = some x) :
    ∃ front back, l = front ++ x :: back ∧ front.length = place := by
  obtain ⟨hlt, rfl⟩ := List.getElem?_eq_some_iff.1 h
  refine ⟨l.take place, l.drop (place + 1), ?_, List.length_take_of_le hlt.le⟩
  rw [List.getElem_cons_drop, List.take_append_drop]

/-- The same seen from the closing element. -/
theorem pairs_iff {l : List α} {i j : Nat} :
    b.Pairs l i j ↔ ∃ front body back, l = (front ++ b.opening :: body) ++ b.closing :: back ∧
      b.Nested body ∧ front.length = i ∧ (front ++ b.opening :: body).length = j := by
  simp only [Pairs, List.append_assoc, List.cons_append, List.length_append, List.length_cons]
  constructor
  all_goals
    rintro ⟨front, body, back, hsplit, hbody, rfl, rfl⟩
    exact ⟨front, body, back, hsplit, hbody, rfl, by omega⟩

theorem exists_pairs_closing_iff (front back : List α) :
    (∃ i, b.Pairs (front ++ b.closing :: back) i front.length) ↔
      ∃ outer body, front = outer ++ b.opening :: body ∧ b.Nested body := by
  constructor
  · rintro ⟨i, hpairs⟩
    obtain ⟨outer, body, rest, hsplit, hbody, -, hlength⟩ := pairs_iff.1 hpairs
    exact ⟨outer, body, List.append_inj_left hsplit hlength.symm, hbody⟩
  · rintro ⟨outer, body, rfl, hbody⟩
    exact ⟨_, pairs_iff.2 ⟨outer, body, back, rfl, hbody, rfl, rfl⟩⟩

theorem exists_pairs_opening_iff (front back : List α) :
    (∃ j, b.Pairs (front ++ b.opening :: back) front.length j) ↔
      ∃ body outer, back = body ++ b.closing :: outer ∧ b.Nested body := by
  constructor
  · rintro ⟨j, front', body, outer, hsplit, hbody, hlength, rfl⟩
    obtain ⟨-, hback⟩ := List.append_inj hsplit hlength.symm
    exact ⟨body, outer, (List.cons.inj hback).2, hbody⟩
  · rintro ⟨body, outer, rfl, hbody⟩
    exact ⟨_, front, body, outer, rfl, hbody, rfl, rfl⟩

theorem Pairs.append {l : List α} {i j : Nat} (h : b.Pairs l i j) (front back : List α) :
    b.Pairs (front ++ l ++ back) (front.length + i) (front.length + j) := by
  obtain ⟨outer, body, rest, rfl, hbody, rfl, rfl⟩ := h
  refine ⟨front ++ outer, body, rest ++ back, by simp, hbody, List.length_append, ?_⟩
  omega

theorem Pairs.getElem? {l : List α} {i j : Nat} (h : b.Pairs l i j) :
    l[i]? = some b.opening ∧ l[j]? = some b.closing := by
  constructor
  · obtain ⟨front, body, back, rfl, -, rfl, -⟩ := h
    simp
  · obtain ⟨front, body, back, rfl, -, -, rfl⟩ := pairs_iff.1 h
    rw [List.getElem?_append_right (Nat.le_refl _), Nat.sub_self, List.getElem?_cons_zero]

theorem getElem?_append_of_lt {front l back : List α} {place : Nat} (h : place < l.length) :
    (front ++ l ++ back)[front.length + place]? = l[place]? := by
  rw [List.append_assoc, List.getElem?_append_right (Nat.le_add_right _ _), Nat.add_sub_cancel_left,
    List.getElem?_append_left h]

/-- A place in a part of a list has a partner if it has one in the part. -/
theorem Unmatched.of_append (front back : List α) {l : List α} {j : Nat} (hj : j < l.length)
    (h : b.Unmatched (front ++ l ++ back) (front.length + j)) : b.Unmatched l j := by
  refine ⟨?_, fun i hpairs => h.2 _ (hpairs.append front back)⟩
  rw [← h.1, getElem?_append_of_lt hj]

theorem Unclosed.of_append (front back : List α) {l : List α} {i : Nat} (hi : i < l.length)
    (h : b.Unclosed (front ++ l ++ back) (front.length + i)) : b.Unclosed l i := by
  refine ⟨?_, fun j hpairs => h.2 _ (hpairs.append front back)⟩
  rw [← h.1, getElem?_append_of_lt hi]

/-! ### Counting -/

variable [DecidableEq α]

/-- How many loops are open behind the list if `depth` are open before it, unless one is closed that
was not opened. -/
def depth? (b : Brackets α) : List α → Nat → Option Nat
  | [], depth => some depth
  | x :: rest, depth =>
    if x = b.opening then b.depth? rest (depth + 1)
    else if x = b.closing then if depth = 0 then none else b.depth? rest (depth - 1)
    else b.depth? rest depth

@[simp]
theorem depth?_nil (depth : Nat) : b.depth? [] depth = some depth := rfl

@[simp]
theorem depth?_opening (rest : List α) (depth : Nat) :
    b.depth? (b.opening :: rest) depth = b.depth? rest (depth + 1) := by
  rw [depth?, if_pos rfl]

@[simp]
theorem depth?_closing_zero (rest : List α) : b.depth? (b.closing :: rest) 0 = none := by
  rw [depth?, if_neg b.distinct.symm, if_pos rfl, if_pos rfl]

@[simp]
theorem depth?_closing_succ (rest : List α) (depth : Nat) :
    b.depth? (b.closing :: rest) (depth + 1) = b.depth? rest depth := by
  rw [depth?, if_neg b.distinct.symm, if_pos rfl, if_neg (Nat.succ_ne_zero depth),
    Nat.add_sub_cancel]

theorem depth?_plain {x : α} (hopening : x ≠ b.opening) (hclosing : x ≠ b.closing) (rest : List α)
    (depth : Nat) : b.depth? (x :: rest) depth = b.depth? rest depth := by
  rw [depth?, if_neg hopening, if_neg hclosing]

theorem depth?_append (front back : List α) (depth : Nat) :
    b.depth? (front ++ back) depth = (b.depth? front depth).bind (b.depth? back) := by
  induction front generalizing depth with
  | nil => rfl
  | cons x front ih =>
    rw [List.cons_append]
    by_cases hopening : x = b.opening
    · subst hopening
      rw [depth?_opening, depth?_opening, ih]
    · by_cases hclosing : x = b.closing
      · subst hclosing
        cases depth with
        | zero => rw [depth?_closing_zero, depth?_closing_zero, Option.bind_none]
        | succ depth => rw [depth?_closing_succ, depth?_closing_succ, ih]
      · rw [depth?_plain hopening hclosing, depth?_plain hopening hclosing, ih]

/-- Loops that are open all the time change nothing else. -/
theorem depth?_add {l : List α} {depth final : Nat} (h : b.depth? l depth = some final)
    (more : Nat) : b.depth? l (depth + more) = some (final + more) := by
  induction l generalizing depth with
  | nil =>
    obtain rfl := Option.some.inj h
    rfl
  | cons x l ih =>
    by_cases hopening : x = b.opening
    · subst hopening
      rw [depth?_opening] at h ⊢
      rw [Nat.add_right_comm]
      exact ih h
    · by_cases hclosing : x = b.closing
      · subst hclosing
        cases depth with
        | zero =>
          rw [depth?_closing_zero] at h
          cases h
        | succ depth =>
          rw [depth?_closing_succ] at h
          rw [Nat.add_right_comm, depth?_closing_succ]
          exact ih h
      · rw [depth?_plain hopening hclosing] at h ⊢
        exact ih h

theorem Nested.depth?_eq {l : List α} (h : b.Nested l) (depth : Nat) :
    b.depth? l depth = some depth := by
  induction h generalizing depth with
  | nil => rfl
  | plain hopening hclosing tail ih => rw [depth?_plain hopening hclosing, ih]
  | loop inner tail ihinner ihtail =>
    rw [depth?_opening, depth?_append, ihinner, Option.bind_some, depth?_closing_succ, ihtail]

/-- A sequence nests, or it can be cut at its first closing element without a partner, or it can be
cut at its last opening element without one. -/
theorem nested_cases (b : Brackets α) (l : List α) :
    b.Nested l ∨ (∃ front back, l = front ++ b.closing :: back ∧ b.Nested front) ∨
      ∃ front back depth, l = front ++ b.opening :: back ∧ b.Nested back ∧
        b.depth? front 0 = some depth := by
  -- A loop that opens here is followed by two shorter lists: its body, and what is behind it.
  induction hlength : l.length using Nat.strong_induction_on generalizing l with
  | _ length ih =>
  cases l with
  | nil => exact .inl .nil
  | cons x l =>
    simp only [List.length_cons] at hlength
    have hl := ih l.length (by omega) l rfl
    by_cases hopening : x = b.opening
    · subst hopening
      rcases hl with hl | ⟨body, rest, rfl, hbody⟩ | ⟨front, back, depth, rfl, hback, hfront⟩
      · exact .inr (.inr ⟨[], l, 0, rfl, hl, rfl⟩)
      · rw [List.length_append, List.length_cons] at hlength
        rcases ih rest.length (by omega) rest rfl with
          hrest | ⟨front, back, rfl, hfront⟩ | ⟨front, back, depth, rfl, hback, hfront⟩
        · exact .inl (.loop hbody hrest)
        · exact .inr (.inl ⟨b.opening :: (body ++ b.closing :: front), back, by simp,
            .loop hbody hfront⟩)
        · refine .inr (.inr ⟨b.opening :: (body ++ b.closing :: front), back, depth, by simp, hback,
            ?_⟩)
          rw [depth?_opening, depth?_append, hbody.depth?_eq, Option.bind_some,
            depth?_closing_succ, hfront]
      · refine .inr (.inr ⟨b.opening :: front, back, depth + 1, rfl, hback, ?_⟩)
        rw [depth?_opening]
        exact depth?_add hfront 1
    · by_cases hclosing : x = b.closing
      · subst hclosing
        exact .inr (.inl ⟨[], l, rfl, .nil⟩)
      · rcases hl with hl | ⟨front, back, rfl, hfront⟩ | ⟨front, back, depth, rfl, hback, hfront⟩
        · exact .inl (.plain hopening hclosing hl)
        · exact .inr (.inl ⟨x :: front, back, rfl, .plain hopening hclosing hfront⟩)
        · refine .inr (.inr ⟨x :: front, back, depth, rfl, hback, ?_⟩)
          rw [depth?_plain hopening hclosing, hfront]

theorem nested_iff {l : List α} : b.Nested l ↔ b.depth? l 0 = some 0 := by
  constructor
  · intro h
    exact h.depth?_eq 0
  · intro h
    rcases b.nested_cases l with hl | ⟨front, back, rfl, hfront⟩ |
      ⟨front, back, depth, rfl, hback, hfront⟩
    · exact hl
    · rw [depth?_append, hfront.depth?_eq, Option.bind_some, depth?_closing_zero] at h
      cases h
    · rw [depth?_append, hfront, Option.bind_some, depth?_opening, hback.depth?_eq] at h
      cases h

theorem Nested.append {front back : List α} (hfront : b.Nested front) (hback : b.Nested back) :
    b.Nested (front ++ back) := by
  rw [nested_iff, depth?_append, hfront.depth?_eq, Option.bind_some, hback.depth?_eq]

/-! ### Places without a partner -/

/-- As long as no loop is closed that was not opened, every closing element has a partner. -/
theorem not_unmatched {l : List α} {final : Nat} (h : b.depth? l 0 = some final) (j : Nat) :
    ¬b.Unmatched l j := by
  rintro ⟨hclosing, hpairs⟩
  obtain ⟨front, back, rfl, rfl⟩ := exists_eq_append_of_getElem? hclosing
  have hnone : ¬∃ outer body, front = outer ++ b.opening :: body ∧ b.Nested body := by
    rw [← exists_pairs_closing_iff front back]
    rintro ⟨i, hi⟩
    exact hpairs i hi
  rw [depth?_append] at h
  rcases b.nested_cases front with hfront | ⟨outer, rest, rfl, houter⟩ |
    ⟨outer, body, depth, rfl, hbody, -⟩
  · rw [hfront.depth?_eq, Option.bind_some, depth?_closing_zero] at h
    cases h
  · rw [depth?_append, houter.depth?_eq, Option.bind_some, depth?_closing_zero] at h
    cases h
  · exact hnone ⟨outer, body, rfl, hbody⟩

theorem Nested.not_unclosed {l : List α} (h : b.Nested l) (i : Nat) : ¬b.Unclosed l i := by
  rintro ⟨hopening, hpairs⟩
  obtain ⟨front, back, rfl, rfl⟩ := exists_eq_append_of_getElem? hopening
  have hnone : ¬∃ body outer, back = body ++ b.closing :: outer ∧ b.Nested body := by
    rw [← exists_pairs_opening_iff front back]
    rintro ⟨j, hj⟩
    exact hpairs j hj
  -- The loop that opens here would still be open at the end.
  have hdepth := h.depth?_eq 0
  rw [depth?_append] at hdepth
  obtain ⟨depth, -, hback⟩ := Option.bind_eq_some_iff.1 hdepth
  rw [depth?_opening] at hback
  rcases b.nested_cases back with hnested | ⟨body, outer, rfl, hbody⟩ |
    ⟨outer, body, final, rfl, hbody, houter⟩
  · rw [hnested.depth?_eq] at hback
    cases hback
  · exact hnone ⟨body, outer, rfl, hbody⟩
  · have hdeep := depth?_add houter (depth + 1)
    rw [Nat.zero_add] at hdeep
    rw [depth?_append, hdeep, Option.bind_some, depth?_opening, hbody.depth?_eq] at hback
    cases hback

theorem unmatched_length {front : List α} (h : b.Nested front) (back : List α) :
    b.Unmatched (front ++ b.closing :: back) front.length := by
  refine ⟨by simp, ?_⟩
  intro i hpairs
  obtain ⟨outer, body, rfl, hbody⟩ := (exists_pairs_closing_iff front back).1 ⟨i, hpairs⟩
  have hdepth := h.depth?_eq 0
  rw [depth?_append] at hdepth
  obtain ⟨depth, -, hrest⟩ := Option.bind_eq_some_iff.1 hdepth
  rw [depth?_opening, hbody.depth?_eq] at hrest
  cases hrest

theorem unclosed_length (front : List α) {back : List α} (h : b.Nested back) :
    b.Unclosed (front ++ b.opening :: back) front.length := by
  refine ⟨by simp, ?_⟩
  intro j hpairs
  obtain ⟨body, outer, rfl, hbody⟩ := (exists_pairs_opening_iff front back).1 ⟨j, hpairs⟩
  have hdepth := h.depth?_eq 0
  rw [depth?_append, hbody.depth?_eq, Option.bind_some, depth?_closing_zero] at hdepth
  cases hdepth

theorem isLeast_unmatched {front : List α} (h : b.Nested front) (back : List α) :
    IsLeast {j | b.Unmatched (front ++ b.closing :: back) j} front.length := by
  refine ⟨unmatched_length h back, ?_⟩
  intro j hj
  by_contra hlt
  apply not_unmatched (h.depth?_eq 0) j
  apply Unmatched.of_append [] (b.closing :: back) (Nat.lt_of_not_le hlt)
  simpa using hj

theorem isGreatest_unclosed (front : List α) {back : List α} (h : b.Nested back) :
    IsGreatest {i | b.Unclosed (front ++ b.opening :: back) i} front.length := by
  refine ⟨unclosed_length front h, ?_⟩
  intro i hi
  by_contra hgt
  obtain ⟨place, rfl⟩ : ∃ place, i = (front ++ [b.opening]).length + place :=
    ⟨i - (front.length + 1), by simp; omega⟩
  obtain ⟨hplace, -⟩ := List.getElem?_eq_some_iff.1 hi.1
  apply h.not_unclosed place
  apply Unclosed.of_append (front ++ [b.opening]) []
  · simp only [List.length_append, List.length_cons, List.length_nil] at hplace
    omega
  · simpa using hi

/-- A closing element between parts that nest is the only one without a partner. -/
theorem unmatched_iff {front back : List α} (hfront : b.Nested front) (hback : b.Nested back)
    {j : Nat} : b.Unmatched (front ++ b.closing :: back) j ↔ j = front.length := by
  constructor
  · intro h
    have hle := (isLeast_unmatched hfront back).2 h
    by_contra hne
    obtain ⟨place, rfl⟩ : ∃ place, j = (front ++ [b.closing]).length + place :=
      ⟨j - (front.length + 1), by simp; omega⟩
    obtain ⟨hplace, -⟩ := List.getElem?_eq_some_iff.1 h.1
    apply not_unmatched (hback.depth?_eq 0) place
    apply Unmatched.of_append (front ++ [b.closing]) []
    · simp only [List.length_append, List.length_cons, List.length_nil] at hplace
      omega
    · simpa using h
  · rintro rfl
    exact unmatched_length hfront back

theorem unclosed_iff {front back : List α} (hfront : b.Nested front) (hback : b.Nested back)
    {i : Nat} : b.Unclosed (front ++ b.opening :: back) i ↔ i = front.length := by
  constructor
  · intro h
    have hle := (isGreatest_unclosed front hback).2 h
    by_contra hne
    apply hfront.not_unclosed i
    apply Unclosed.of_append [] (b.opening :: back) (Nat.lt_of_le_of_ne hle hne)
    simpa using h
  · rintro rfl
    exact unclosed_length front hback

end Brackets

end ByteTape
