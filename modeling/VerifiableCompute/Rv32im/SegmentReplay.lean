import Mathlib

/-! Replaying the host calls of a segment. The executor records what each read returned
and how much each write took, in two lists; the handler of a segment answers the calls
from these lists, with a cursor for each. -/

namespace VerifiableCompute.Rv32im

open List

/-- A call as it was made, with what the handler left in the buffer of a read. -/
inductive HostCall where
  | read (fd : ℕ) (buf filled : List UInt8) (rlen : ℕ)
  | write (fd : ℕ) (buf : List UInt8) (rlen : ℕ)

/-- A buffer keeps its length, and no more is read or written than was asked for. -/
def HostCall.Valid : HostCall → Prop
  | .read _ buf filled rlen => filled.length = buf.length ∧ rlen ≤ buf.length
  | .write _ buf rlen => rlen ≤ buf.length

structure IoRecord where
  readRecord : List (List UInt8)
  writeRecord : List ℕ

namespace IoRecord

def hostRead (filled : List UInt8) (rlen : ℕ) (r : IoRecord) : Option IoRecord :=
  if rlen ≤ filled.length then some { r with readRecord := r.readRecord ++ [filled.take rlen] } else none

def hostWrite (rlen : ℕ) (r : IoRecord) : IoRecord := { r with writeRecord := r.writeRecord ++ [rlen] }

def record : List HostCall → IoRecord → Option IoRecord
  | [], r => some r
  | .read _ _ filled rlen :: calls, r => do
    let r ← r.hostRead filled rlen
    record calls r
  | .write _ _ rlen :: calls, r => record calls (r.hostWrite rlen)

end IoRecord

structure SegmentSyscallHandler where
  segment : IoRecord
  readPos : ℕ
  writePos : ℕ

namespace SegmentSyscallHandler

def new (segment : IoRecord) : SegmentSyscallHandler := ⟨segment, 0, 0⟩

/-- Copying from a slice of another length panics. -/
def hostRead (buf : List UInt8) (h : SegmentSyscallHandler) : Option ((List UInt8 × ℕ) × SegmentSyscallHandler) := do
  let pos := h.readPos
  let readRecord ← h.segment.readRecord[pos]?
  if readRecord.length = buf.length then
    some ((readRecord, readRecord.length), { h with readPos := h.readPos + 1 })
  else none

/-- The cursor of the writes is set from that of the reads. -/
def hostWrite (h : SegmentSyscallHandler) : Option (ℕ × SegmentSyscallHandler) := do
  let pos := h.writePos
  let rlen ← h.segment.writeRecord[pos]?
  return (rlen, { h with writePos := h.readPos + 1 })

end SegmentSyscallHandler

inductive HostAnswer where
  | read (buf : List UInt8) (rlen : ℕ)
  | write (rlen : ℕ)

open SegmentSyscallHandler in
/-- The answers to the same requests; `none` is a panic. -/
def replay : List HostCall → SegmentSyscallHandler → Option (List HostAnswer)
  | [], _ => some []
  | .read _ buf _ _ :: calls, h => do
    let (answer, h) ← h.hostRead buf
    let answers ← replay calls h
    return .read answer.1 answer.2 :: answers
  | .write _ _ _ :: calls, h => do
    let (rlen, h) ← h.hostWrite
    let answers ← replay calls h
    return .write rlen :: answers

def HostCall.Answered : HostCall → HostAnswer → Prop
  | .read _ _ filled rlen, .read buf rlen' => rlen' = rlen ∧ buf.take rlen = filled.take rlen
  | .write _ _ rlen, .write rlen' => rlen' = rlen
  | _, _ => False

/-- Every call is answered as it was recorded, without a panic. -/
def Replays (calls : List HostCall) (h : SegmentSyscallHandler) : Prop :=
  ∃ answers, replay calls h = some answers ∧ List.Forall₂ HostCall.Answered calls answers

/-- Whether a read filled its buffer. -/
def HostCall.Full : HostCall → Prop
  | .read _ buf _ rlen => rlen = buf.length
  | .write _ _ _ => True

/-- A write of a run, with the number of reads before it. -/
structure RecordedWrite where
  readsBefore : ℕ
  rlen : ℕ

def writesFrom (reads : ℕ) : List HostCall → List RecordedWrite
  | [] => []
  | .read _ _ _ _ :: calls => writesFrom (reads + 1) calls
  | .write _ _ rlen :: calls => ⟨reads, rlen⟩ :: writesFrom reads calls

/-- Every read filled its buffer, and each write but the first took as much as the write
whose index is one more than the number of reads before the previous write. -/
structure ReplayedExactly (calls : List HostCall) : Prop where
  full : ∀ c ∈ calls, c.Full
  aligned : (writesFrom 0 calls).IsChain fun w w' =>
    ((writesFrom 0 calls).map RecordedWrite.rlen)[w.readsBefore + 1]? = some w'.rlen

def readsOf : List HostCall → List (List UInt8)
  | [] => []
  | .read _ _ filled rlen :: calls => filled.take rlen :: readsOf calls
  | .write _ _ _ :: calls => readsOf calls

theorem record_spec (calls : List HostCall) (hvalid : ∀ c ∈ calls, c.Valid) (reads : ℕ) (r : IoRecord) :
    IoRecord.record calls r =
      some ⟨r.readRecord ++ readsOf calls, r.writeRecord ++ (writesFrom reads calls).map RecordedWrite.rlen⟩ := by
  induction calls generalizing r reads with
  | nil => simp [IoRecord.record, readsOf, writesFrom]
  | cons c calls ih =>
    rw [forall_mem_cons] at hvalid
    cases c with
    | read fd buf filled rlen =>
      have hlen : rlen ≤ filled.length := hvalid.1.1 ▸ hvalid.1.2
      rw [IoRecord.record, IoRecord.hostRead, if_pos hlen]
      simp only [Option.bind_eq_bind, Option.bind_some]
      rw [ih hvalid.2 (reads + 1), readsOf, writesFrom, append_assoc]
      rfl
    | write fd buf rlen =>
      rw [IoRecord.record, ih hvalid.2 reads, readsOf, writesFrom, IoRecord.hostWrite, map_cons, append_assoc]
      rfl

variable {fd rlen : ℕ} {calls : List HostCall} {h : SegmentSyscallHandler}

theorem replays_read {buf filled : List UInt8}
    (hvalid : (HostCall.read fd buf filled rlen).Valid) (hread : h.segment.readRecord[h.readPos]? = some (filled.take rlen)) :
    Replays (.read fd buf filled rlen :: calls) h ↔
      rlen = buf.length ∧ Replays calls { h with readPos := h.readPos + 1 } := by
  have hlen : (filled.take rlen).length = rlen := by
    rw [length_take, hvalid.1]
    exact min_eq_left hvalid.2
  have hrun : replay (.read fd buf filled rlen :: calls) h = if rlen = buf.length then
      (replay calls { h with readPos := h.readPos + 1 }).map (.read (filled.take rlen) rlen :: ·) else none := by
    rw [replay, SegmentSyscallHandler.hostRead]
    simp only [Option.bind_eq_bind, hread, Option.bind_some, hlen]
    split_ifs
    · rw [Option.bind_some]
      cases replay calls { h with readPos := h.readPos + 1 } <;> rfl
    · rfl
  unfold Replays
  rw [hrun]
  constructor
  · rintro ⟨answers, hanswers, hmatch⟩
    obtain ⟨hfull, hanswers⟩ := Option.ite_none_right_eq_some.mp hanswers
    obtain ⟨rest, hrest, rfl⟩ := Option.map_eq_some_iff.mp hanswers
    exact ⟨hfull, rest, hrest, (forall₂_cons.mp hmatch).2⟩
  · rintro ⟨hfull, rest, hrest, hmatch⟩
    refine ⟨.read (filled.take rlen) rlen :: rest, ?_, .cons ⟨rfl, ?_⟩ hmatch⟩
    · rw [if_pos hfull, hrest]
      rfl
    · rw [take_take, min_self]

theorem replays_write {buf : List UInt8} : Replays (.write fd buf rlen :: calls) h ↔
      h.segment.writeRecord[h.writePos]? = some rlen ∧ Replays calls { h with writePos := h.readPos + 1 } := by
  have hrun : replay (.write fd buf rlen :: calls) h = (h.segment.writeRecord[h.writePos]?).bind fun rlen' =>
      (replay calls { h with writePos := h.readPos + 1 }).map (.write rlen' :: ·) := by
    rw [replay, SegmentSyscallHandler.hostWrite]
    cases h.segment.writeRecord[h.writePos]? with
    | none => rfl
    | some rlen' => cases hrest : replay calls { h with writePos := h.readPos + 1 } <;> simp [hrest]
  unfold Replays
  rw [hrun]
  constructor
  · rintro ⟨answers, hanswers, hmatch⟩
    obtain ⟨rlen', hwrite, hanswers⟩ := Option.bind_eq_some_iff.mp hanswers
    obtain ⟨rest, hrest, rfl⟩ := Option.map_eq_some_iff.mp hanswers
    have hmatch := forall₂_cons.mp hmatch
    have hrlen : rlen' = rlen := hmatch.1
    exact ⟨hrlen ▸ hwrite, rest, hrest, hmatch.2⟩
  · rintro ⟨hwrite, rest, hrest, hmatch⟩
    exact ⟨.write rlen :: rest, by rw [hwrite, Option.bind_some, hrest]; rfl, .cons rfl hmatch⟩

/-- From any position of the cursors at which the reads line up. -/
theorem replays_from (calls : List HostCall) (hvalid : ∀ c ∈ calls, c.Valid) (h : SegmentSyscallHandler)
    (hreads : h.segment.readRecord.drop h.readPos = readsOf calls) : Replays calls h ↔ (∀ c ∈ calls, c.Full) ∧
      (∀ w ∈ (writesFrom h.readPos calls).head?, h.segment.writeRecord[h.writePos]? = some w.rlen) ∧
      (writesFrom h.readPos calls).IsChain fun w w' => h.segment.writeRecord[w.readsBefore + 1]? = some w'.rlen := by
  induction calls generalizing h with
  | nil => exact ⟨fun _ => ⟨by simp, by simp [writesFrom], .nil⟩, fun _ => ⟨[], rfl, .nil⟩⟩
  | cons c calls ih =>
    rw [forall_mem_cons] at hvalid
    rw [forall_mem_cons]
    cases c with
    | read fd buf filled rlen =>
      rw [readsOf] at hreads
      have hread : h.segment.readRecord[h.readPos]? = some (filled.take rlen) := by
        rw [← head?_drop, hreads]
        rfl
      have hrest : h.segment.readRecord.drop (h.readPos + 1) = readsOf calls := by
        rw [← drop_drop, hreads]
        rfl
      rw [replays_read hvalid.1 hread, ih hvalid.2 _ hrest, writesFrom]
      exact and_assoc.symm
    | write fd buf rlen =>
      rw [replays_write, ih hvalid.2 { h with writePos := h.readPos + 1 } hreads, writesFrom, isChain_cons]
      simp only [head?_cons, Option.mem_some_iff, forall_eq', HostCall.Full, true_and]
      tauto

/-- A segment is replayed if and only if its calls are of the kind that the two cursors
and the copying of whole buffers fit. -/
theorem segment_replayed_iff (calls : List HostCall) (hvalid : ∀ c ∈ calls, c.Valid) :
    ∃ r, IoRecord.record calls ⟨[], []⟩ = some r ∧
      (Replays calls (SegmentSyscallHandler.new r) ↔ ReplayedExactly calls) := by
  refine ⟨_, record_spec calls hvalid 0 ⟨[], []⟩, ?_⟩
  rw [replays_from calls hvalid _ rfl]
  constructor
  · rintro ⟨hfull, -, hchain⟩
    exact ⟨hfull, hchain⟩
  · rintro ⟨hfull, hchain⟩
    refine ⟨hfull, fun w hw => ?_, hchain⟩
    show ((writesFrom 0 calls).map RecordedWrite.rlen)[0]? = some w.rlen
    have hw : (writesFrom 0 calls).head? = some w := hw
    rw [← List.head?_eq_getElem?, List.head?_map, hw]
    rfl

/-- Two writes and a read between them, all complete. -/
theorem segment_replayed_iff_sample :
    ∃ r, IoRecord.record [.write 1 [7] 1, .read 0 [0] [5] 1, .write 1 [7, 8] 2] ⟨[], []⟩ = some r ∧
      Replays [.write 1 [7] 1, .read 0 [0] [5] 1, .write 1 [7, 8] 2] (SegmentSyscallHandler.new r) := by
  obtain ⟨r, hr, hiff⟩ := segment_replayed_iff [.write 1 [7] 1, .read 0 [0] [5] 1, .write 1 [7, 8] 2]
    (by simp [HostCall.Valid])
  refine ⟨r, hr, hiff.mpr ⟨by simp [HostCall.Full], ?_⟩⟩
  simp [writesFrom]

/-- Neither a read that falls short of its buffer nor a third write is replayed. -/
theorem segment_not_replayed : (∃ r, IoRecord.record [.read 0 [0, 0] [5, 0] 1] ⟨[], []⟩ = some r ∧
      ¬ Replays [.read 0 [0, 0] [5, 0] 1] (SegmentSyscallHandler.new r)) ∧
    ∃ r, IoRecord.record [.write 1 [7] 1, .write 1 [7, 8] 2, .write 1 [7, 8, 9] 3] ⟨[], []⟩ = some r ∧
      ¬ Replays [.write 1 [7] 1, .write 1 [7, 8] 2, .write 1 [7, 8, 9] 3] (SegmentSyscallHandler.new r) := by
  refine ⟨⟨_, rfl, ?_⟩, _, rfl, ?_⟩
  · rintro ⟨answers, hanswers, -⟩
    cases hanswers
  · rintro ⟨answers, hanswers, hmatch⟩
    cases hanswers
    simp [HostCall.Answered] at hmatch

end VerifiableCompute.Rv32im
