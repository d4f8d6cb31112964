import Mathlib

/-! Writers and readers over one stream of tokens. A writer appends what it is
given, a reader takes tokens from the front, and the two meet in `RoundTrip`: what
the writer appended is what the reader takes, whatever follows it. -/

namespace VerifiableCompute.Lib

variable {τ ε α β : Type}

/-- A fallible computation on a stream of tokens. -/
abbrev Codec (τ ε : Type) := StateT (List τ) (Except ε)

namespace Codec

/-- Running `w` appends exactly `ts` and changes nothing written before. -/
def Writes (w : Codec τ ε Unit) (ts : List τ) : Prop := ∀ stream, w stream = .ok ((), stream ++ ts)

/-- Running `r` on `ts` and anything after it takes exactly `ts` and returns `a`. -/
def Reads (r : Codec τ ε α) (ts : List τ) (a : α) : Prop := ∀ rest, r (ts ++ rest) = .ok (a, rest)

/-- What `w` appends, `r` reads back as `a` and no further. -/
def RoundTrip (w : Codec τ ε Unit) (r : Codec τ ε α) (a : α) : Prop := ∃ ts, Writes w ts ∧ Reads r ts a

theorem Writes.pure : Writes (pure () : Codec τ ε Unit) [] := by
  intro stream
  rw [List.append_nil]
  rfl

variable {w : Codec τ ε Unit} {w' : Unit → Codec τ ε Unit} {ts ts' : List τ} {r : Codec τ ε α} {r' : α → Codec τ ε β} {a : α} {b : β}
  {x : Except ε α}

theorem Writes.bind (h : Writes w ts) (h' : Writes (w' ()) ts') : Writes (w >>= w') (ts ++ ts') := by
  intro stream
  show (w stream >>= fun p => w' p.1 p.2) = _
  rw [h stream, ← List.append_assoc]
  exact h' _

theorem Reads.pure (a : α) : Reads (pure a : Codec τ ε α) [] a := fun _ => rfl

theorem Reads.bind (h : Reads r ts a) (h' : Reads (r' a) ts' b) : Reads (r >>= r') (ts ++ ts') b := by
  intro rest
  show (r (ts ++ ts' ++ rest) >>= fun p => r' p.1 p.2) = _
  rw [List.append_assoc, h (ts' ++ rest)]
  exact h' rest

theorem RoundTrip.pure (a : α) : RoundTrip (pure () : Codec τ ε Unit) (pure a) a :=
  ⟨[], .pure, .pure a⟩

theorem RoundTrip.bind (h : RoundTrip w r a) (h' : RoundTrip (w' ()) (r' a) b) : RoundTrip (w >>= w') (r >>= r') b := by
  obtain ⟨ts, hw, hr⟩ := h
  obtain ⟨ts', hw', hr'⟩ := h'
  exact ⟨ts ++ ts', hw.bind hw', hr.bind hr'⟩

/-- The reader may go on computing once all tokens are taken. -/
theorem RoundTrip.map (h : RoundTrip w r a) (h' : r' a = Pure.pure b) : RoundTrip w (r >>= r') b := by
  obtain ⟨ts, hw, hr⟩ := h
  refine ⟨ts, hw, ?_⟩
  have := hr.bind (h' ▸ Reads.pure b)
  rwa [List.append_nil] at this

theorem Writes.lift {w : α → Codec τ ε Unit} (hx : x = .ok a) (h : Writes (w a) ts) :
    Writes ((StateT.lift x : Codec τ ε α) >>= w) ts := by
  intro stream
  subst hx
  exact h stream

theorem Reads.map (f : α → β) (h : Reads r ts a) : Reads (r >>= fun x => Pure.pure (f x)) ts (f a) := by
  have hpure : Reads (r >>= fun x => Pure.pure (f x)) (ts ++ []) (f a) := h.bind (.pure (f a))
  rwa [List.append_nil] at hpure

theorem Reads.lift (hx : x = .ok a) : Reads (StateT.lift x : Codec τ ε α) [] a := by
  intro rest
  rw [hx]
  rfl

/-- A reader used where errors are of another type. -/
def mapError {ε' : Type} (f : ε → ε') (r : Codec τ ε α) : Codec τ ε' α := fun stream => (r stream).mapError f

theorem Reads.mapError {ε' : Type} (f : ε → ε') (h : Reads r ts a) : Reads (r.mapError f) ts a := by
  intro rest
  rw [Codec.mapError, h rest]
  rfl

/-- Write every element in turn. -/
def writeEach (w : α → Codec τ ε Unit) : List α → Codec τ ε Unit
  | [] => Pure.pure ()
  | a :: as => do
    w a
    writeEach w as

/-- Read `n` elements. -/
def readMany (r : Codec τ ε α) : ℕ → Codec τ ε (List α)
  | 0 => Pure.pure []
  | n + 1 => do
    let a ← r
    let as ← readMany r n
    return a :: as

theorem RoundTrip.many {w : α → Codec τ ε Unit} (as : List α)
    (h : ∀ a ∈ as, RoundTrip (w a) r a) : RoundTrip (writeEach w as) (readMany r as.length) as := by
  induction as with
  | nil => exact .pure []
  | cons a as ih =>
    have htail : RoundTrip (writeEach w as) (readMany r as.length) as :=
      ih fun b hb => h b (List.mem_cons_of_mem _ hb)
    exact (h a List.mem_cons_self).bind (htail.map rfl)

/-- No encoding of a round trip is a proper prefix of another's: the tokens and the
value are fixed by any stream that starts with them. -/
theorem Reads.prefix_free {rest rest' : List τ} {a' : α} (h : Reads r ts a)
    (h' : Reads r ts' a') (heq : ts ++ rest = ts' ++ rest') : a = a' ∧ ts = ts' := by
  have hboth : (Except.ok (a, rest) : Except ε (α × List τ)) = .ok (a', rest') := by
    rw [← h rest, heq, h' rest']
  cases hboth
  exact ⟨rfl, List.append_cancel_right heq⟩

end Codec

end VerifiableCompute.Lib
