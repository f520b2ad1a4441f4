/-!
# Index spaces

A tape has no ends, but the indices of its cells are computed. An index space says what becomes of a
computed index: unbounded indices stay as they are, and words, which have 64 bits and a sign, go on
at the other end of their range. Where nothing is said indices are unbounded; a machine in memory
has words. The two agree on what is computed within the range of words (`wrap_word_of_inWord`), and
so on layouts whose pointer is in reach of what was written and on runs that go over no end of the
range.
-/

namespace ByteTape

/-- How indices are computed. -/
class IndexSpace where
  /-- The index that a computed number stands for. -/
  wrap : Int → Int

namespace IndexSpace

instance unbounded : IndexSpace := ⟨fun index => index⟩

@[reducible]
def word : IndexSpace := ⟨fun index => (Int64.ofInt index).toInt⟩

/-- The least word. -/
def first : Int := -9223372036854775808

/-- The greatest word. -/
def last : Int := 9223372036854775807

/-- The number is a word. -/
def InWord (index : Int) : Prop := first ≤ index ∧ index ≤ last

instance (index : Int) : Decidable (InWord index) := inferInstanceAs (Decidable (_ ∧ _))

@[simp]
theorem wrap_unbounded (index : Int) : unbounded.wrap index = index := rfl

theorem wrap_word (index : Int) : word.wrap index = index.bmod Int64.size := Int64.toInt_ofInt

theorem wrap_word_of_inWord {index : Int} (h : InWord index) : word.wrap index = index := by
  obtain ⟨hfirst, hlast⟩ := h
  simp only [first, last] at hfirst hlast
  rw [wrap_word]
  apply Int.bmod_eq_of_le
  · simp only [Int64.size]
    omega
  · simp only [Int64.size]
    omega

theorem inWord_wrap (index : Int) : InWord (word.wrap index) := by
  have hle := Int.le_bmod (x := index) (m := Int64.size) (by decide)
  have hlt := Int.bmod_lt (x := index) (m := Int64.size) (by decide)
  simp only [Int64.size] at hle hlt
  rw [wrap_word]
  simp only [InWord, first, last, Int64.size]
  omega

end IndexSpace

end ByteTape
