import VerifiableCompute.KeccakClaim.Digest
import VerifiableCompute.KeccakClaim.Permutation

/-! The trace that the prover generates for a batch. Cycles that step through each permutation
alternate with cycles that hash its state; every cycle scatters words of the trace's data into
its row of the witness. -/

namespace VerifiableCompute.KeccakClaim

structure PreflightCycle where
  cycle : ℕ
  preimageIdx : ℕ

structure ControlState where
  cycleType : ℕ
  subType : ℕ
  round : ℕ

def ControlState.asU32 (s : ControlState) : BitVec 32 :=
  BitVec.ofNat 32 (s.cycleType + 2 ^ 8 * s.subType + 2 ^ 16 * s.round)

inductive Control
  | shutdown
  | read
  | expand (subType : ℕ)
  | write
  | keccak0 (round : ℕ)
  | keccak1 (round : ℕ)
  | keccak2 (round : ℕ)
  | keccak3 (round : ℕ)
  | keccak4 (round : ℕ)
  | poseidonIn (round : ℕ)
  | poseidonOut (round : ℕ)
  | init

def Control.asState : Control → ControlState
  | .shutdown => ⟨0, 0, 0⟩
  | .read => ⟨1, 0, 0⟩
  | .expand subType => ⟨2, subType, 0⟩
  | .write => ⟨3, 0, 0⟩
  | .keccak0 round => ⟨4, 0, round⟩
  | .keccak1 round => ⟨5, 0, round⟩
  | .keccak2 round => ⟨6, 0, round⟩
  | .keccak3 round => ⟨7, 0, round⟩
  | .keccak4 round => ⟨8, 0, round⟩
  | .poseidonIn round => ⟨9, 0, round⟩
  | .poseidonOut round => ⟨9, 1, round⟩
  | .init => ⟨10, 0, 0⟩

/-- `count` fields of `bits` bits each, from the data at `offset` into a row from column `col` on. -/
structure ScatterInfo where
  offset : ℕ
  row : ℕ
  col : ℕ
  count : ℕ
  bits : ℕ

def cycleTypeCol : ℕ := 11

def cycleMuxCol : ℕ := 0

def bitsCol : ℕ := 14

def kflatCol : ℕ := 814

def pflatCol : ℕ := 914

/-- The cycles are grouped by a key of their control state. -/
structure PreflightTrace (Key : Type) where
  cycle : ℕ
  preimages : List KeccakState
  data : List (BitVec 32)
  scatter : List ScatterInfo
  cycles : Key → List PreflightCycle

variable {Key : Type} [DecidableEq Key] (keyForCycle : ControlState → Key) (mix : Cells → Cells)

namespace PreflightTrace

def addCycle (ctrl : Control) (bits kflat pflat preimageIdx : ℕ) (t : PreflightTrace Key) : PreflightTrace Key :=
  let offset := t.data.length
  let ctrlState := ctrl.asState
  let onehot : BitVec 32 := 1 <<< ctrlState.cycleType
  { t with
    data := t.data ++ [ctrlState.asU32, onehot]
    scatter := t.scatter ++
      [{ offset := offset, row := t.cycle, col := cycleTypeCol, count := 3, bits := 8 },
       { offset := offset + 1, row := t.cycle, col := cycleMuxCol, count := 11, bits := 1 },
       { offset := bits, row := t.cycle, col := bitsCol, count := 800, bits := 1 },
       { offset := kflat, row := t.cycle, col := kflatCol, count := 100, bits := 16 },
       { offset := pflat, row := t.cycle, col := pflatCol, count := 24, bits := 32 }]
    cycles := Function.update t.cycles (keyForCycle ctrlState) (t.cycles (keyForCycle ctrlState) ++ [⟨t.cycle, preimageIdx⟩])
    cycle := t.cycle + 1 }

/-- Words appended to the data, and their offset. -/
def append (words : List (BitVec 32)) (t : PreflightTrace Key) : PreflightTrace Key × ℕ :=
  ({ t with data := t.data ++ words }, t.data.length)

end PreflightTrace

def cellWords (cells : Cells) : List (BitVec 32) := cells.toList.map BabyBearElem.asU32

def writePflat (cells : Cells) (t : PreflightTrace Key) : PreflightTrace Key × ℕ := t.append (cellWords cells)

/-- The words of a state in the data. The hash reads them with six words of padding. -/
def writeKflat (kstate : KeccakState) (t : PreflightTrace Key) : PreflightTrace Key × ℕ × List (BitVec 32) :=
  let (t, offset) := t.append (stateWords kstate)
  (t, offset, stateWords kstate ++ List.replicate 6 0)

def writeKeccak (state : KeccakState) (high : Bool) (t : PreflightTrace Key) : PreflightTrace Key × ℕ :=
  t.append (state.toList.map fun (x : BitVec 64) => if high then (x >>> 32).setWidth 32 else x.setWidth 32)

def writeTheta (theta : ThetaB) (t : PreflightTrace Key) : PreflightTrace Key × ℕ :=
  t.append (theta.toList.flatMap laneWords ++ List.replicate 20 0)

/-- The trace with the sponge's cells and the offset of their last copy. -/
structure Sponge (Key : Type) where
  trace : PreflightTrace Key
  cells : Cells
  pflat : ℕ

def poseidonRound (data : List (BitVec 32)) (kflat curIdx : ℕ) (isIn : Bool) (s : Sponge Key) (round : ℕ) : Sponge Key :=
  let cells := mix (s.cells.withRate (halfWord (data.drop (8 * round))))
  let (t, pflat) := writePflat cells s.trace
  let ctrl := if isIn then Control.poseidonIn round else .poseidonOut round
  ⟨t.addCycle keyForCycle ctrl 0 kflat pflat curIdx, cells, pflat⟩

def writePoseidon (data : List (BitVec 32)) (kflat curIdx : ℕ) (isIn : Bool) (s : Sponge Key) : Sponge Key :=
  (List.range 7).foldl (poseidonRound keyForCycle mix data kflat curIdx isIn) s

def traceRound (kflat pflat curIdx : ℕ) (st : PreflightTrace Key × KeccakState) (round : ℕ) : PreflightTrace Key × KeccakState :=
  let (t, kstate) := st
  let theta := thetaP1 kstate
  let (t, bits) := writeTheta theta t
  let t := t.addCycle keyForCycle (.keccak0 round) bits kflat pflat curIdx
  let kstate := thetaP2RhoPi kstate theta
  let (t, bits) := writeKeccak kstate false t
  let t := t.addCycle keyForCycle (.keccak1 round) bits kflat pflat curIdx
  let (t, bits) := writeKeccak kstate true t
  let t := t.addCycle keyForCycle (.keccak2 round) bits kflat pflat curIdx
  let kstate := chiIota kstate round
  let (t, bits) := writeKeccak kstate false t
  let t := t.addCycle keyForCycle (.keccak3 round) bits kflat pflat curIdx
  let (t, bits) := writeKeccak kstate true t
  let t := t.addCycle keyForCycle (.keccak4 round) bits kflat pflat curIdx
  (t, kstate)

def traceRounds (kflat pflat curIdx : ℕ) (st : PreflightTrace Key × KeccakState) : PreflightTrace Key × KeccakState :=
  (List.range 24).foldl (traceRound keyForCycle kflat pflat curIdx) st

def hashState (isIn : Bool) (cycleIdx curIdx : ℕ) (kstate : KeccakState) (s : Sponge Key) : Sponge Key × ℕ :=
  let (t, kflat, data) := writeKflat kstate s.trace
  let ctrl := if isIn then Control.read else .write
  let t := t.addCycle keyForCycle ctrl 0 kflat s.pflat cycleIdx
  (writePoseidon keyForCycle mix data kflat curIdx isIn { s with trace := t }, kflat)

def expandState (kflat pflat curIdx : ℕ) (kstate : KeccakState) (t : PreflightTrace Key) : PreflightTrace Key :=
  let (t, bits) := writeKeccak kstate false t
  let t := t.addCycle keyForCycle (.expand 0) bits kflat pflat curIdx
  let (t, bits) := writeKeccak kstate true t
  t.addCycle keyForCycle (.expand 1) bits kflat pflat curIdx

/-- The cycles of a permutation up to the one that writes its output. -/
def tracePermutation (st : Sponge Key × ℕ) (kstate : KeccakState) : Sponge Key × KeccakState :=
  let curIdx := st.2 + 1
  let read := hashState keyForCycle mix true st.2 curIdx kstate st.1
  let t := expandState keyForCycle read.2 read.1.pflat curIdx kstate read.1.trace
  let rounds := traceRounds keyForCycle read.2 read.1.pflat curIdx (t, kstate)
  ({ read.1 with trace := rounds.1 }, rounds.2)

def traceInput (st : Sponge Key × ℕ) (kstate : KeccakState) : Sponge Key × ℕ :=
  let curIdx := st.2 + 1
  let permuted := tracePermutation keyForCycle mix st kstate
  ((hashState keyForCycle mix false curIdx curIdx permuted.2 permuted.1).1, curIdx)

/-- Shutdown cycles up to a count of cycles in all. -/
def shutdown (pflat curIdx : ℕ) : ℕ → PreflightTrace Key → PreflightTrace Key
  | 0, t => t
  | n + 1, t => shutdown pflat curIdx n (t.addCycle keyForCycle .shutdown 0 0 pflat curIdx)

def traceInit (inputs : List KeccakState) : Sponge Key :=
  let t : PreflightTrace Key := { cycle := 0, preimages := inputs, data := List.replicate 100 0, scatter := [], cycles := fun _ => [] }
  let (t, pflat) := writePflat .zero t
  ⟨t.addCycle keyForCycle .init 0 0 pflat 0, .zero, pflat⟩

def traceInputs (inputs : List KeccakState) : Sponge Key × ℕ :=
  inputs.foldl (traceInput keyForCycle mix) (traceInit keyForCycle inputs, 0)

def PreflightTrace.new (inputs : List KeccakState) (cycles : ℕ) : PreflightTrace Key :=
  let (s, curIdx) := traceInputs keyForCycle mix inputs
  shutdown keyForCycle s.pflat curIdx (cycles - s.trace.cycle) s.trace

end VerifiableCompute.KeccakClaim
