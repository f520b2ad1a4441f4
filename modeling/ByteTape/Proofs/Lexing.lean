import Mathlib.Data.List.Forall2
import Mathlib.Data.List.TakeWhile
import ByteTape.Notation.Lexeme
import ByteTape.Source

/-!
# Cutting a source text into pieces

Three patterns cut a source text: a command, prose, and a comment up to the end of its line. `Lexes`
takes the longest piece that matches, again and again, and keeps the commands. Scanning gives the
same commands at the same offsets, so every text can be cut up, and in one way only. A character is
kept exactly if it is a command and not inside a comment.
-/

namespace ByteTape.Source

open Notation

/-- Neither a command nor the beginning of a comment. -/
abbrev IsProse (c : Char) : Prop := Opcode.ofChar? c = none ∧ c ≠ Code.commentMarker

inductive Pattern where
  | command (op : Opcode)
  | prose
  | comment

namespace Pattern

def Matches : Pattern → List Char → Prop
  | .command op, piece => piece = [op.toChar]
  | .prose, piece => piece ≠ [] ∧ ∀ c ∈ piece, IsProse c
  | .comment, piece => ∃ rest, piece = Code.commentMarker :: rest ∧ '\n' ∉ rest

/-- Only commands are kept. -/
def tokens : Pattern → Nat → List Token
  | .command op, offset => [⟨op, offset⟩]
  | .prose, _ => []
  | .comment, _ => []

end Pattern

/-- No pattern matches more of the text than `piece`. -/
def Longest (piece rest : List Char) : Prop :=
  ∀ (pattern : Pattern) (other : List Char), other <+: piece ++ rest → pattern.Matches other →
    other.length ≤ piece.length

/-- The tokens of a text that stands at an offset, cut by longest match. -/
inductive Lexes : Nat → List Char → List Token → Prop where
  | done (offset : Nat) : Lexes offset [] []
  | cut {pattern : Pattern} {piece rest : List Char} {offset : Nat} {tokens : List Token}
      (hmatches : pattern.Matches piece) (hlongest : Longest piece rest)
      (tail : Lexes (offset + byteSize piece) rest tokens) :
      Lexes offset (piece ++ rest) (pattern.tokens offset ++ tokens)

/-! ### Scanning a piece -/

theorem ofChar?_commentMarker : Opcode.ofChar? Code.commentMarker = none := rfl

theorem toChar_ne_commentMarker (op : Opcode) : op.toChar ≠ Code.commentMarker := by
  intro h
  have hop := Opcode.ofChar?_eq_some_iff.2 h.symm
  rw [ofChar?_commentMarker] at hop
  cases hop

theorem scanFrom_command (op : Opcode) (offset : Nat) (rest : List Char) :
    scanFrom false offset (op.toChar :: rest) =
      ⟨op, offset⟩ :: scanFrom false (offset + op.toChar.utf8Size) rest := by
  simp [scanFrom, toChar_ne_commentMarker]

theorem scanFrom_prose {piece : List Char} (h : ∀ c ∈ piece, IsProse c) (offset : Nat)
    (rest : List Char) :
    scanFrom false offset (piece ++ rest) = scanFrom false (offset + byteSize piece) rest := by
  induction piece generalizing offset with
  | nil => rfl
  | cons c piece ih =>
    obtain ⟨hop, hmarker⟩ := h c List.mem_cons_self
    have htail := ih (fun d hd => h d (List.mem_cons_of_mem c hd)) (offset + c.utf8Size)
    rw [byteSize_cons, ← Nat.add_assoc, ← htail]
    simp [scanFrom, hmarker, hop]

theorem scanFrom_comment {piece : List Char} (h : '\n' ∉ piece) (offset : Nat) (rest : List Char) :
    scanFrom true offset (piece ++ rest) = scanFrom true (offset + byteSize piece) rest := by
  induction piece generalizing offset with
  | nil => rfl
  | cons c piece ih =>
    obtain ⟨hc, hpiece⟩ := List.ne_and_not_mem_of_not_mem_cons h
    rw [byteSize_cons, ← Nat.add_assoc, ← ih hpiece (offset + c.utf8Size)]
    simp [scanFrom, hc.symm]

/-- A comment that cannot be made longer is at the end of its line. -/
theorem Longest.line_ends {piece rest : List Char}
    (h : Longest (Code.commentMarker :: piece) rest) (hpiece : '\n' ∉ piece) :
    rest = [] ∨ ∃ lines, rest = '\n' :: lines := by
  cases rest with
  | nil => exact .inl rfl
  | cons c rest =>
    by_cases hc : c = '\n'
    · exact .inr ⟨rest, by rw [hc]⟩
    · have hlonger := h .comment (Code.commentMarker :: (piece ++ [c])) ⟨rest, by simp⟩
        ⟨piece ++ [c], rfl, by simp [hpiece, Ne.symm hc]⟩
      simp only [List.length_cons, List.length_append, List.length_nil] at hlonger
      omega

/-- At the end of a line it does not matter whether there was a comment. -/
theorem scanFrom_line_ends (offset : Nat) {rest : List Char}
    (h : rest = [] ∨ ∃ lines, rest = '\n' :: lines) :
    scanFrom true offset rest = scanFrom false offset rest := by
  obtain rfl | ⟨lines, rfl⟩ := h
  · rfl
  · have hskip : Opcode.ofChar? '\n' = none := rfl
    simp [scanFrom, Code.commentMarker, hskip]

theorem Lexes.eq_scanFrom {offset : Nat} {text : List Char} {tokens : List Token}
    (h : Lexes offset text tokens) : tokens = scanFrom false offset text := by
  induction h with
  | done offset => rfl
  | @cut pattern piece rest offset tokens hmatches hlongest tail ih =>
    subst ih
    cases pattern with
    | command op =>
      obtain rfl := hmatches
      exact (scanFrom_command op offset rest).symm
    | prose => exact (scanFrom_prose hmatches.2 offset rest).symm
    | comment =>
      obtain ⟨piece, rfl, hpiece⟩ := hmatches
      have hends := scanFrom_line_ends (offset + byteSize (Code.commentMarker :: piece))
        (hlongest.line_ends hpiece)
      have hcomment := scanFrom_comment hpiece (offset + Code.commentMarker.utf8Size) rest
      rw [byteSize_cons, ← Nat.add_assoc] at hends ⊢
      rw [Pattern.tokens, List.nil_append, ← hends, ← hcomment]
      simp [scanFrom]

/-! ### Every text can be cut up -/

theorem Pattern.Matches.exists_cons {pattern : Pattern} {piece : List Char}
    (h : pattern.Matches piece) : ∃ c rest, piece = c :: rest := by
  cases pattern with
  | command op => exact ⟨_, _, h⟩
  | prose => exact List.exists_cons_of_ne_nil h.1
  | comment =>
    obtain ⟨rest, rfl, -⟩ := h
    exact ⟨_, rest, rfl⟩

theorem length_le_length_takeWhile {p : Char → Bool} {front text : List Char} (h : front <+: text)
    (hfront : ∀ c ∈ front, p c = true) : front.length ≤ (text.takeWhile p).length := by
  obtain ⟨rest, rfl⟩ := h
  rw [List.takeWhile_append_of_pos hfront, List.length_append]
  exact Nat.le_add_right _ _

theorem longest_command (op : Opcode) (rest : List Char) : Longest [op.toChar] rest := by
  intro pattern other hfront hmatches
  obtain ⟨c, tail, rfl⟩ := hmatches.exists_cons
  obtain ⟨rfl, -⟩ := List.cons_prefix_cons.1 hfront
  cases pattern with
  | command op' =>
    obtain ⟨-, rfl⟩ := List.cons.inj hmatches
    exact Nat.le_refl _
  | prose =>
    have hop := (hmatches.2 _ List.mem_cons_self).1
    rw [Opcode.ofChar?_toChar] at hop
    cases hop
  | comment =>
    obtain ⟨body, hbody, -⟩ := hmatches
    exact absurd (List.cons.inj hbody).1 (toChar_ne_commentMarker op)

theorem longest_comment (rest : List Char) :
    Longest (Code.commentMarker :: rest.takeWhile (· ≠ '\n')) (rest.dropWhile (· ≠ '\n')) := by
  intro pattern other hfront hmatches
  rw [List.cons_append, List.takeWhile_append_dropWhile] at hfront
  obtain ⟨c, tail, rfl⟩ := hmatches.exists_cons
  obtain ⟨rfl, htail⟩ := List.cons_prefix_cons.1 hfront
  cases pattern with
  | command op => exact absurd (List.cons.inj hmatches).1.symm (toChar_ne_commentMarker op)
  | prose => exact absurd rfl (hmatches.2 _ List.mem_cons_self).2
  | comment =>
    obtain ⟨body, hbody, hline⟩ := hmatches
    obtain ⟨-, rfl⟩ := List.cons.inj hbody
    refine Nat.succ_le_succ (length_le_length_takeWhile htail ?_)
    intro d hd
    exact decide_eq_true fun heq => hline (heq ▸ hd)

theorem longest_prose {c : Char} (hc : IsProse c) (rest : List Char) :
    Longest ((c :: rest).takeWhile (IsProse ·)) ((c :: rest).dropWhile (IsProse ·)) := by
  intro pattern other hfront hmatches
  rw [List.takeWhile_append_dropWhile] at hfront
  refine length_le_length_takeWhile hfront ?_
  obtain ⟨d, tail, rfl⟩ := hmatches.exists_cons
  obtain ⟨rfl, -⟩ := List.cons_prefix_cons.1 hfront
  cases pattern with
  | command op =>
    obtain ⟨rfl, -⟩ := List.cons.inj hmatches
    cases (Opcode.ofChar?_toChar op).symm.trans hc.1
  | prose => exact fun x hx => decide_eq_true (hmatches.2 x hx)
  | comment =>
    obtain ⟨body, hbody, -⟩ := hmatches
    exact absurd (List.cons.inj hbody).1 hc.2

theorem exists_longest (c : Char) (rest : List Char) :
    ∃ (pattern : Pattern) (piece back : List Char), c :: rest = piece ++ back ∧
      pattern.Matches piece ∧ Longest piece back := by
  cases hop : Opcode.ofChar? c with
  | some op =>
    obtain rfl := Opcode.ofChar?_eq_some_iff.1 hop
    exact ⟨.command op, [op.toChar], rest, rfl, rfl, longest_command op rest⟩
  | none =>
    by_cases hmarker : c = Code.commentMarker
    · subst hmarker
      refine ⟨.comment, _, _, ?_, ⟨_, rfl, ?_⟩, longest_comment rest⟩
      · rw [List.cons_append, List.takeWhile_append_dropWhile]
      · intro hmem
        simpa using List.mem_takeWhile_imp hmem
    · have hc : IsProse c := ⟨hop, hmarker⟩
      refine ⟨.prose, _, _, List.takeWhile_append_dropWhile.symm, ⟨?_, ?_⟩, longest_prose hc rest⟩
      · rw [List.takeWhile_cons_of_pos (by simpa using hc)]
        exact List.cons_ne_nil _ _
      · intro d hd
        simpa using List.mem_takeWhile_imp hd

theorem exists_lexes (text : List Char) (offset : Nat) : ∃ tokens, Lexes offset text tokens := by
  induction hlength : text.length using Nat.strong_induction_on generalizing text offset with
  | _ length ih =>
  cases text with
  | nil => exact ⟨[], .done offset⟩
  | cons c rest =>
    obtain ⟨pattern, piece, back, hsplit, hmatches, hlongest⟩ := exists_longest c rest
    have hshorter : back.length < length := by
      obtain ⟨d, tail, rfl⟩ := hmatches.exists_cons
      rw [← hlength, hsplit, List.length_append, List.length_cons]
      omega
    obtain ⟨tokens, htokens⟩ := ih back.length hshorter back (offset + byteSize piece) rfl
    rw [hsplit]
    exact ⟨_, .cut hmatches hlongest htokens⟩

theorem lexes_iff {offset : Nat} {text : List Char} {tokens : List Token} :
    Lexes offset text tokens ↔ tokens = scanFrom false offset text := by
  constructor
  · exact Lexes.eq_scanFrom
  · rintro rfl
    obtain ⟨tokens, htokens⟩ := exists_lexes text offset
    rwa [← htokens.eq_scanFrom]

/-! ### Where the commands stand -/

/-- What comes next is inside a comment: a marker stands before it in the same line. -/
def InComment (front : List Char) : Prop :=
  ∃ before comment, front = before ++ Code.commentMarker :: comment ∧ '\n' ∉ comment

theorem not_inComment_nil : ¬InComment [] := by
  rintro ⟨before, comment, h, -⟩
  exact absurd h.symm (by simp)

theorem inComment_concat {front : List Char} {c : Char} :
    InComment (front ++ [c]) ↔ c = Code.commentMarker ∨ c ≠ '\n' ∧ InComment front := by
  constructor
  · rintro ⟨before, comment, hsplit, hline⟩
    obtain rfl | ⟨comment, d, rfl⟩ := List.eq_nil_or_concat comment
    · exact .inl (List.cons.inj (List.append_inj' hsplit rfl).2).1
    · rw [List.concat_eq_append] at hsplit hline
      rw [← List.cons_append, ← List.append_assoc] at hsplit
      obtain ⟨hfront, hd⟩ := List.append_inj' hsplit rfl
      obtain ⟨rfl, -⟩ := List.cons.inj hd
      simp only [List.mem_append, List.mem_singleton, not_or] at hline
      exact .inr ⟨Ne.symm hline.2, before, comment, hfront, hline.1⟩
  · rintro (rfl | ⟨hc, before, comment, rfl, hline⟩)
    · exact ⟨front, [], rfl, List.not_mem_nil⟩
    · exact ⟨before, comment ++ [c], by simp, by simp [hline, Ne.symm hc]⟩

/-- A command stands at a place of the text, outside of comments. -/
def IsCommand (text : List Char) (op : Opcode) (index : Nat) : Prop :=
  text[index]? = some op.toChar ∧ ¬InComment (text.take index)

/-- The token is the command at `index`. -/
def Token.StandsAt (text : List Char) (token : Token) (index : Nat) : Prop :=
  IsCommand text token.op index ∧ token.start = byteSize (text.take index)

/-- Whether a comment goes on behind `c`. -/
def commentAfter (comment : Bool) (c : Char) : Bool :=
  if comment then c ≠ '\n' else c = Code.commentMarker

theorem commentAfter_iff {front : List Char} {comment : Bool}
    (h : comment = true ↔ InComment front) (c : Char) :
    commentAfter comment c = true ↔ InComment (front ++ [c]) := by
  rw [inComment_concat, ← h]
  cases comment with
  | true =>
    have hmarker : c = Code.commentMarker → c ≠ '\n' := by
      rintro rfl
      decide
    simpa [commentAfter] using hmarker
  | false => simp [commentAfter]

theorem scanFrom_skip {comment : Bool} {c : Char} (h : comment = true ∨ Opcode.ofChar? c = none)
    (offset : Nat) (rest : List Char) :
    scanFrom comment offset (c :: rest) =
      scanFrom (commentAfter comment c) (offset + c.utf8Size) rest := by
  cases comment with
  | true => simp [scanFrom, commentAfter]
  | false =>
    have hop := h.resolve_left Bool.false_ne_true
    by_cases hmarker : c = Code.commentMarker <;> simp [scanFrom, commentAfter, hmarker, hop]

theorem isCommand_length {front rest : List Char} {c : Char} {op : Opcode} :
    IsCommand (front ++ c :: rest) op front.length ↔ c = op.toChar ∧ ¬InComment front := by
  simp [IsCommand]

/-- The places of the commands from `first` on, in order, with the tokens at them. -/
structure Listing (text : List Char) (first : Nat) (tokens : List Token) (places : List Nat) :
    Prop where
  sorted : places.Pairwise (· < ·)
  mem_iff : ∀ index, index ∈ places ↔ first ≤ index ∧ ∃ op, IsCommand text op index
  stands : List.Forall₂ (Token.StandsAt text) tokens places

theorem Listing.nil (text : List Char) : Listing text text.length [] [] := by
  refine ⟨.nil, ?_, .nil⟩
  intro index
  refine iff_of_false List.not_mem_nil ?_
  rintro ⟨hle, op, hop, -⟩
  rw [List.getElem?_eq_none hle] at hop
  cases hop

theorem Listing.skip {text : List Char} {first : Nat} {tokens : List Token} {places : List Nat}
    (h : Listing text (first + 1) tokens places) (hfirst : ∀ op, ¬IsCommand text op first) :
    Listing text first tokens places := by
  refine ⟨h.sorted, ?_, h.stands⟩
  intro index
  rw [h.mem_iff]
  constructor
  · rintro ⟨hle, hop⟩
    exact ⟨by omega, hop⟩
  · rintro ⟨hle, op, hop⟩
    have hne : index ≠ first := by
      rintro rfl
      exact hfirst op hop
    exact ⟨by omega, op, hop⟩

theorem Listing.cons {text : List Char} {first : Nat} {tokens : List Token} {places : List Nat}
    (h : Listing text (first + 1) tokens places) {token : Token}
    (htoken : token.StandsAt text first) :
    Listing text first (token :: tokens) (first :: places) := by
  refine ⟨List.pairwise_cons.2 ⟨?_, h.sorted⟩, ?_, .cons htoken h.stands⟩
  · intro index hindex
    exact ((h.mem_iff index).1 hindex).1
  · intro index
    rw [List.mem_cons, h.mem_iff]
    constructor
    · rintro (rfl | ⟨hle, hop⟩)
      · exact ⟨Nat.le_refl _, token.op, htoken.1⟩
      · exact ⟨by omega, hop⟩
    · rintro ⟨hle, hop⟩
      by_cases heq : index = first
      · exact .inl heq
      · exact .inr ⟨by omega, hop⟩

/-- Scanning the part behind `front` lists the commands whose places are not in `front`. -/
theorem exists_listing_scanFrom (front rest : List Char) {comment : Bool}
    (hcomment : comment = true ↔ InComment front) :
    ∃ places,
      Listing (front ++ rest) front.length (scanFrom comment (byteSize front) rest) places := by
  -- Characters go over to `front` one by one, and the flag keeps saying how `front` ends.
  induction rest generalizing front comment with
  | nil =>
    refine ⟨[], ?_⟩
    rw [List.append_nil]
    exact .nil front
  | cons c rest ih =>
    obtain ⟨places, hplaces⟩ := ih (front ++ [c]) (commentAfter_iff hcomment c)
    have hsize : byteSize (front ++ [c]) = byteSize front + c.utf8Size := by simp
    rw [← List.append_cons, List.length_append, List.length_singleton, hsize] at hplaces
    by_cases hskip : comment = true ∨ Opcode.ofChar? c = none
    · refine ⟨places, ?_⟩
      rw [scanFrom_skip hskip]
      refine hplaces.skip ?_
      intro op hop
      obtain ⟨rfl, hfront⟩ := isCommand_length.1 hop
      rw [Opcode.ofChar?_toChar] at hskip
      exact hfront (hcomment.1 (hskip.resolve_right (Option.some_ne_none op)))
    · obtain ⟨hcode, hsome⟩ := not_or.1 hskip
      obtain ⟨op, hop⟩ := Option.ne_none_iff_exists'.1 hsome
      obtain rfl := Opcode.ofChar?_eq_some_iff.1 hop
      obtain rfl := Bool.eq_false_iff.2 hcode
      have hafter : commentAfter false op.toChar = false := by
        simp [commentAfter, toChar_ne_commentMarker]
      rw [hafter] at hplaces
      refine ⟨front.length :: places, ?_⟩
      rw [scanFrom_command]
      exact hplaces.cons ⟨isCommand_length.2 ⟨rfl, mt hcomment.2 hcode⟩, by simp⟩

theorem exists_listing (text : String) :
    ∃ places, Listing text.toList 0 (scan text) places := by
  apply exists_listing_scanFrom []
  exact iff_of_false Bool.false_ne_true not_inComment_nil

end ByteTape.Source
