import Mathlib

/-! Readers of a stream. A read fills a part of the buffer that it is given, which may be less than what is left of the
stream; to fill a buffer it is read from until the buffer is full or a read comes back empty. -/

namespace VerifiableCompute.Lib

variable {σ α : Type}

/-- A read gives at most as much as it was asked for. -/
structure Reader (α σ : Type) where
  read : (len : ℕ) → σ → {bytes : List α // bytes.length ≤ len} × σ

namespace Reader

variable (r : Reader α σ)

/-- Each read gives a first part of what is left, and an empty one only at the end. -/
structure Delivers (rest : σ → List α) : Prop where
  splits : ∀ len s, rest s = (r.read len s).1 ++ rest (r.read len s).2
  progress : ∀ len s, 0 < len → rest s ≠ [] → (r.read len s).1.val ≠ []

/-- A buffer of this length is filled from its start; every read that is not empty uses it up. -/
def readAll : ℕ → ℕ → σ → List α × σ
  | 0, _, s => ([], s)
  | fuel + 1, len, s =>
    if len = 0 then ([], s)
    else
      let nread := r.read len s
      if nread.1.val = [] then ([], nread.2)
      else
        let more := readAll fuel (len - nread.1.val.length) nread.2
        (nread.1.val ++ more.1, more.2)

def readFull (len : ℕ) (s : σ) : List α × σ := r.readAll len len s

variable {r} {rest : σ → List α}

theorem Delivers.readAll (h : r.Delivers rest) {fuel len : ℕ} (hfuel : len ≤ fuel) (s : σ) :
    (r.readAll fuel len s).1 = (rest s).take len ∧ rest (r.readAll fuel len s).2 = (rest s).drop len := by
  induction fuel generalizing len s with
  | zero =>
    obtain rfl : len = 0 := by omega
    exact ⟨rfl, rfl⟩
  | succ fuel ih =>
    have hsplit := h.splits len s
    have hle := (r.read len s).1.property
    unfold Reader.readAll
    dsimp only
    split_ifs with hzero hempty
    · subst hzero
      exact ⟨rfl, rfl⟩
    · have hrest : rest s = [] := by
        by_contra hne
        exact h.progress len s (by omega) hne hempty
      rw [hrest, hempty] at hsplit
      rw [hrest]
      exact ⟨List.take_nil.symm, by rw [List.drop_nil]; exact hsplit.symm⟩
    · have hpos : 0 < (r.read len s).1.val.length := List.length_pos_iff.mpr hempty
      have hfuel' : len - (r.read len s).1.val.length ≤ fuel := by omega
      obtain ⟨hmore, hleft⟩ := ih hfuel' (r.read len s).2
      constructor
      · rw [hsplit, List.take_append, List.take_of_length_le hle]
        exact congrArg _ hmore
      · rw [hsplit, List.drop_append, List.drop_of_length_le hle]
        exact hleft

/-- The buffer holds the next bytes of the stream, as many as it takes or as there are. -/
theorem Delivers.readFull (h : r.Delivers rest) (len : ℕ) (s : σ) :
    (r.readFull len s).1 = (rest s).take len ∧ rest (r.readFull len s).2 = (rest s).drop len := h.readAll le_rfl s

end Reader

end VerifiableCompute.Lib
