import VerifiableCompute.Rv32im.HostRead
import VerifiableCompute.Rv32im.BibcSafety

/-! The big integer call. A program of the guest computes a witness from what it loads;
what it stores is collected in chunks, and is written to memory when it has returned. -/

namespace VerifiableCompute.Rv32im.Bigint

open Lib PagedMemory Executor Risc0Machine Bibc List Program

def regT0 : Fin 32 := 5
def regT1 : Fin 32 := 6
def regT2 : Fin 32 := 7
def regT3 : Fin 32 := 28

def userBigintEndAddr : ByteAddr := 0xbfff0000

def maxNondetProgramSize : ℕ := 10 * 2 ^ 20

def bigintWidthWords : ℕ := 4

def bigintWidthBytes : ℕ := bigintWidthWords * 4

/-- Chunks of four words at their addresses. -/
abbrev BigIntWitness := OrderedMap ℕ (Fin 4 → Word)

/-- The state of a program's loads and stores. The addresses that it has loaded are kept
for what is stated of them. -/
structure IOState where
  mode : Word
  witness : BigIntWitness
  loaded : List ℕ

def ensure (p : Prop) [Decidable p] (message : String) : Exec Unit := if p then pure () else fault (.bail message)

/-- The registers are an array, and the number of an arena is not checked. -/
def loadAlignedAddr (idx : ℕ) : Exec ℕ := do
  if idx < regMax then
    let word ← Executor.loadRegister machineRegs (Fin.ofNat 32 idx)
    if isAligned word then pure (waddr word) else fault (.unalignedAddress word)
  else fault .panicked

def checkBigintAddr (addr : ℕ) (mode : Word) : Exec Unit :=
  ensure (addr ≥ waddr zeroPageEndAddr ∧ (mode = 1 ∨ addr < waddr userBigintEndAddr)) "Invalid bigint address"

abbrev BigIntExecIO := StateT (Executor × IOState) (Except Fault)

def onContext {α : Type} (x : Exec α) : BigIntExecIO α := fun s =>
  match x s.1 with
  | .error f => .error f
  | .ok (a, t) => .ok (a, t, s.2)

def getMode : BigIntExecIO Word := fun s => .ok (s.2.mode, s)

def noteLoaded (addrs : List ℕ) : BigIntExecIO Unit := fun s =>
  .ok ((), s.1, { s.2 with loaded := s.2.loaded ++ addrs })

def insertWitness (chunks : List (ℕ × (Fin 4 → Word))) : BigIntExecIO Unit := fun s =>
  .ok ((), s.1, { s.2 with witness := chunks.foldl (fun m e => m.insert e.1 e.2) s.2.witness })

def maskLast (count : ℕ) (limbs : List Word) : List Word :=
  match count % 4 with
  | 1 => limbs.modify (limbs.length - 1) (· &&& 0x000000FF)
  | 2 => limbs.modify (limbs.length - 1) (· &&& 0x0000FFFF)
  | 3 => limbs.modify (limbs.length - 1) (· &&& 0x00FFFFFF)
  | _ => limbs

def fromLimbsAsc (limbs : List Word) : ℕ := Nat.ofDigits (2 ^ 32) (limbs.map BitVec.toNat)

def toLimbsAsc (value : ℕ) : List Word := (Nat.digits (2 ^ 32) value).map (BitVec.ofNat 32)

def wordAddrs (start count : ℕ) : List ℕ := (List.range ((count + 3) / 4)).map (start + ·)

def load (arena offset count : ℕ) : BigIntExecIO ℕ := do
  let base ← onContext (loadAlignedAddr arena)
  let startAddr := base + offset * bigintWidthWords
  let mode ← getMode
  onContext (checkBigintAddr startAddr mode)
  let limbs ← onContext ((wordAddrs startAddr count).mapM (loadU32 .load))
  noteLoaded (wordAddrs startAddr count)
  return fromLimbsAsc (maskLast count limbs)

/-- The chunks of a value, filled up with zeros to their number. -/
def chunks (addr number : ℕ) (limbs : List Word) : List (ℕ × (Fin 4 → Word)) :=
  (List.range number).map fun i =>
    (addr + i * bigintWidthWords, fun j => limbs.getD (i * bigintWidthWords + j) 0)

def store (arena offset count value : ℕ) : BigIntExecIO Unit := do
  let base ← onContext (loadAlignedAddr arena)
  let addr := base + offset * bigintWidthWords
  let mode ← getMode
  onContext (checkBigintAddr addr mode)
  let limbs := toLimbsAsc value
  onContext (ensure (count ≥ limbs.length * 4)
    s!"bigint_store: count ({count} bytes) too small for value ({limbs.length * 4} bytes)")
  onContext (ensure (count % bigintWidthBytes = 0)
    s!"bigint_store: count ({count}) is not a multiple of {bigintWidthBytes}")
  insertWitness (chunks addr (count / bigintWidthBytes) limbs)

def bigIntIO : BigIntIO (Executor × IOState) Fault := ⟨load, store⟩

structure BigIntExec where
  verifyProgramSize : ℕ
  io : IOState

def witnessWords (witness : BigIntWitness) : List (ℕ × Word) :=
  witness.entries.flatMap fun e => (List.finRange 4).map fun (i : Fin 4) => (e.1 + i, e.2 i)

def writeWitnessToMemory (witness : BigIntWitness) : Exec Unit :=
  (witnessWords witness).forM fun w => storeU32 w.1 w.2

def regionAddrs (addr : ByteAddr) (words : ℕ) : List ℕ := (List.range words).map (waddr addr + ·)

def checkRegion (addr : ByteAddr) (size : ℕ) : Exec Unit :=
  ensure (addr.toNat + size % 2 ^ 32 < 2 ^ 32) "Region end is past the end of memory"

/-- The bytes of a region, which is read as words. -/
def loadRegion (addr : ByteAddr) (words : ℕ) : Exec (List Byte) := do
  checkRegion addr (words * 4)
  let loaded ← (regionAddrs addr words).mapM (loadU32 .load)
  return loaded.flatMap toLeBytes

/-- Pages in a region, of which the size has been cut to the width of an address. -/
def drainRegion (addr : ByteAddr) (words : ℕ) : Exec Unit := do
  checkRegion addr (words * 4)
  (regionAddrs addr (words * 4 % 2 ^ 32 / 4)).forM fun a => do
    let _ ← loadU32 .load a

/-- What stops a program, as a fault of the machine. -/
def stopFault : Stop Fault → Fault
  | .io f => f
  | .unexpectedEof => .bail "failed to fill whole buffer"
  | .bail message => .bail message
  | .panicked => .panicked

def evalProgram (host : Host) (bytes : List Byte) (mode : Word) : Exec IOState := fun s =>
  match runProgram host bigIntIO bytes (s, ⟨mode, .empty, []⟩) with
  | .error e => .error (stopFault e)
  | .ok ((), t, io) => .ok (io, t)

def ecall (host : Host) : Exec BigIntExec := do
  let mode ← Executor.loadRegister machineRegs regT0
  ensure (mode = 0 ∨ mode = 1) s!"Invalid mode for bigint ecall: {mode.toNat}"
  let blobPtr ← loadAlignedAddr regA0
  let nondetProgramPtr ← loadAlignedAddr regT1
  let verifyProgramPtr ← loadAlignedAddr regT2
  let constsPtr ← loadAlignedAddr regT3
  let nondetProgramSize ← loadU32 .load blobPtr
  let verifyProgramSize ← loadU32 .load (blobPtr + 1)
  let constsSize ← loadU32 .load (blobPtr + 2)
  ensure (nondetProgramSize.toNat * 4 ≤ maxNondetProgramSize) "bigint2 nondet program is too large"
  let bytes ← loadRegion (BitVec.ofNat 32 (nondetProgramPtr * 4)) nondetProgramSize.toNat
  let io ← evalProgram host bytes mode
  drainRegion (BitVec.ofNat 32 (verifyProgramPtr * 4) - wordSize) verifyProgramSize.toNat
  drainRegion (BitVec.ofNat 32 (constsPtr * 4)) constsSize.toNat
  return ⟨verifyProgramSize.toNat, io⟩

def ecallExecute (host : Host) : Exec ℕ := do
  let exec ← ecall host
  writeWitnessToMemory exec.io.witness
  return exec.verifyProgramSize

/-! Where a program of user mode loads and stores. Only the start of an access is checked,
so that it stays in user memory exactly when its count does not lead out of it. -/

def startAddr (words : ℕ → Word) (op : Op) : ℕ := waddr (words (machineRegs + op.arena)) + op.offset * bigintWidthWords

/-- From its start on, what an operation loads or stores ends within user memory. -/
def OpFits (words : ℕ → Word) (program : Program) (op : Op) : Prop :=
  op.code = .load ∨ op.code = .store → ∀ typ, program.types[op.resultType]? = some typ →
    startAddr words op + typ.count / 4 ≤ waddr userEndAddr

/-- What has been loaded, and what is going to be written, is in user memory. -/
structure InUser (io : IOState) : Prop where
  loaded : ∀ addr ∈ io.loaded, IsUserWord addr
  written : ∀ w ∈ witnessWords io.witness, IsUserWord w.1

variable {v : MachineView} {s s' : Executor} {io io' : IOState} {program : Program} {op : Op} {c : Prop}

theorem userStart_eq : waddr userStartAddr = 0x4000 := by decide

theorem userEnd_eq : waddr userEndAddr = 0x30000000 := by decide

theorem count_mod (typ : Ty) : typ.count % 16 = 0 := by
  unfold Ty.count
  omega

/-- The check that is made of the start in user mode. -/
def StartOk (addr : ℕ) : Prop := waddr zeroPageEndAddr ≤ addr ∧ addr < waddr userBigintEndAddr

variable {start n idx arena offset count value : ℕ} {message : String} {u : Unit} {bytes : List Byte} {mode : Word}

theorem range_in_user (h : StartOk start) : (∀ i < n, IsUserWord (start + i)) ↔ start + n ≤ waddr userEndAddr := by
  have hstart : 0x4000 ≤ start ∧ start < 0x2fffc000 := h
  unfold IsUserWord
  rw [userStart_eq, userEnd_eq]
  constructor
  · intro hall
    by_cases hzero : n = 0
    · omega
    · have := hall (n - 1) (by omega)
      omega
  · intro hle i hi
    omega

theorem wordAddrs_in_user (typ : Ty) (h : StartOk start) :
    (∀ addr ∈ wordAddrs start typ.count, IsUserWord addr) ↔ start + typ.count / 4 ≤ waddr userEndAddr := by
  have hmod := count_mod typ
  have hdiv : (typ.count + 3) / 4 = typ.count / 4 := by omega
  rw [← range_in_user h, wordAddrs, hdiv]
  simp only [mem_map, mem_range, forall_exists_index, and_imp, forall_apply_eq_imp_iff₂]

theorem written_iff (P : ℕ → Prop) (m : BigIntWitness) :
    (∀ w ∈ witnessWords m, P w.1) ↔ ∀ k, (m.get? k).isSome → ∀ i : Fin 4, P (k + i) := by
  constructor
  · intro h k hk i
    obtain ⟨chunk, hchunk⟩ := Option.isSome_iff_exists.mp hk
    exact h (k + i, chunk i) (mem_flatMap.mpr ⟨(k, chunk), OrderedMap.mem_entries_iff.mpr hchunk,
      mem_map.mpr ⟨i, mem_finRange i, rfl⟩⟩)
  · intro h w hw
    obtain ⟨e, he, hw⟩ := mem_flatMap.mp hw
    obtain ⟨i, -, rfl⟩ := mem_map.mp hw
    exact h e.1 (Option.isSome_iff_exists.mpr ⟨e.2, OrderedMap.mem_entries_iff.mp he⟩) i

theorem isSome_foldl_insert {V : Type} (l : List (ℕ × V)) (m : OrderedMap ℕ V) (k : ℕ) :
    ((l.foldl (fun m e => m.insert e.1 e.2) m).get? k).isSome ↔ k ∈ l.map Prod.fst ∨ (m.get? k).isSome := by
  induction l generalizing m with
  | nil => simp
  | cons e l ih =>
    rw [foldl_cons, ih, OrderedMap.get?_insert, map_cons, mem_cons]
    split_ifs with hk
    · simp [hk]
    · simp [hk]

theorem inserted_in_user (typ : Ty) (h : StartOk start) (limbs : List Word) (m : BigIntWitness) :
    (∀ w ∈ witnessWords ((chunks start (typ.count / bigintWidthBytes) limbs).foldl (fun m e => m.insert e.1 e.2) m),
      IsUserWord w.1) ↔
      (∀ w ∈ witnessWords m, IsUserWord w.1) ∧ start + typ.count / 4 ≤ waddr userEndAddr := by
  have hmod := count_mod typ
  have hbytes : bigintWidthBytes = 16 := rfl
  rw [written_iff, written_iff, ← range_in_user h]
  have hkeys (k : ℕ) : k ∈ (chunks start (typ.count / bigintWidthBytes) limbs).map Prod.fst ↔
      ∃ i < typ.count / 16, k = start + 4 * i := by
    rw [chunks, map_map, mem_map, hbytes]
    refine exists_congr fun i => ?_
    rw [mem_range]
    refine and_congr_right fun _ => ?_
    show start + i * 4 = k ↔ _
    omega
  constructor
  · intro hall
    refine ⟨fun k hk i => hall k ((isSome_foldl_insert _ m k).mpr (.inr hk)) i, fun i hi => ?_⟩
    have hchunk := hall (start + 4 * (i / 4)) ((isSome_foldl_insert _ m _).mpr (.inl ((hkeys _).mpr ⟨i / 4, by omega, rfl⟩)))
      ⟨i % 4, Nat.mod_lt _ (by decide)⟩
    have heq : start + 4 * (i / 4) + i % 4 = start + i := by omega
    exact heq ▸ hchunk
  · rintro ⟨hold, hnew⟩ k hk j
    rcases (isSome_foldl_insert _ m k).mp hk with hk | hk
    · obtain ⟨i, hi, rfl⟩ := (hkeys k).mp hk
      have hj := j.isLt
      rw [Nat.add_assoc]
      exact hnew (4 * i + j) (by omega)
    · exact hold k hk j

theorem ensure_ok {p : Prop} [Decidable p] (h : ensure p message s = .ok (u, s')) : p ∧ s' = s := by
  unfold ensure at h
  split_ifs at h with hp
  · cases h
    exact ⟨hp, rfl⟩
  · cases h

theorem ensure_runs {p : Prop} [Decidable p] (h : c → p) : RunsIf c Shows (ensure p message) v () v := by
  unfold ensure
  split_ifs with hp
  · exact runs_pure v ()
  · exact runs_of_fails (fun hc => hp (h hc)) fun s _ => ⟨_, rfl⟩

theorem loadAlignedAddr_runs (h : c → idx < regMax ∧ isAligned (v.words (machineRegs + idx))) :
    RunsIf c Shows (loadAlignedAddr idx) v (waddr (v.words (machineRegs + idx))) v := by
  unfold loadAlignedAddr
  split_ifs with hlt
  · have hload : RunsIf c Shows (Executor.loadRegister machineRegs (Fin.ofNat 32 idx)) v (v.words (machineRegs + idx)) v := by
      have hval : ((Fin.ofNat 32 idx : Fin 32) : ℕ) = idx := Nat.mod_eq_of_lt hlt
      have hrun := Executor.loadRegister_runs (c := c) v (.inr rfl) (Fin.ofNat 32 idx)
      rwa [hval] at hrun
    refine hload.bind ?_
    split_ifs with haligned
    · exact runs_pure v _
    · exact runs_of_fails (fun hc => haligned (h hc).2) fun s _ => ⟨_, rfl⟩
  · exact runs_of_fails (fun hc => hlt (h hc).1) fun s _ => ⟨_, rfl⟩

theorem onContext_ok {α : Type} {x : Exec α} {a : α} (h : onContext x (s, io) = .ok (a, s', io')) :
    x s = .ok (a, s') ∧ io' = io := by
  unfold onContext at h
  dsimp only at h
  cases hx : x s with
  | error f =>
    rw [hx] at h
    cases h
  | ok r =>
    rw [hx] at h
    cases h
    exact ⟨rfl, rfl⟩

theorem start_ok {α : Type} {k : ℕ → BigIntExecIO α} {a : α}
    (h : (onContext (loadAlignedAddr arena) >>= fun base => getMode >>= fun mode =>
      onContext (checkBigintAddr (base + offset * bigintWidthWords) mode) >>= fun _ =>
        k (base + offset * bigintWidthWords)) (s, io) = .ok (a, s', io')) (hs : Shows v s) (hmode : io.mode = 0) :
    ∃ t, Shows v t ∧ StartOk (waddr (v.words (machineRegs + arena)) + offset * bigintWidthWords) ∧
      k (waddr (v.words (machineRegs + arena)) + offset * bigintWidthWords) (t, io) = .ok (a, s', io') := by
  obtain ⟨base, ⟨t, io₁⟩, hbase, h1⟩ := bind_eq_ok.mp h
  obtain ⟨haligned, rfl⟩ := onContext_ok hbase
  obtain ⟨rfl, ht⟩ := (loadAlignedAddr_runs (c := False) False.elim).ends hs haligned
  obtain ⟨mode, ⟨t', io₂⟩, hget, h2⟩ := bind_eq_ok.mp h1
  cases hget
  obtain ⟨⟨⟩, ⟨t'', io₃⟩, hcheck, h3⟩ := bind_eq_ok.mp h2
  obtain ⟨hensure, rfl⟩ := onContext_ok hcheck
  obtain ⟨hok, rfl⟩ := ensure_ok hensure
  refine ⟨_, ht, ⟨hok.1, hok.2.resolve_left ?_⟩, h3⟩
  rw [hmode]
  decide

theorem load_ok (h : load arena offset count (s, io) = .ok (value, s', io')) (hs : Shows v s)
    (hmode : io.mode = 0) : Shows v s' ∧ StartOk (waddr (v.words (machineRegs + arena)) + offset * bigintWidthWords) ∧
      io' = { io with
        loaded := io.loaded ++ wordAddrs (waddr (v.words (machineRegs + arena)) + offset * bigintWidthWords) count } := by
  obtain ⟨t, ht, hstart, h1⟩ := start_ok (k := fun startAddr => onContext ((wordAddrs startAddr count).mapM (loadU32 .load)) >>=
    fun limbs => noteLoaded (wordAddrs startAddr count) >>= fun _ => pure (fromLimbsAsc (maskLast count limbs))) h hs hmode
  obtain ⟨limbs, ⟨t', io₁⟩, hlimbs, h2⟩ := bind_eq_ok.mp h1
  obtain ⟨hwords, rfl⟩ := onContext_ok hlimbs
  have hload (addr : ℕ) : RunsIf False Shows (loadU32 .load addr) v (v.words addr) v := loadU32_runs .load v False.elim
  obtain ⟨-, ht'⟩ := (runs_mapM _ v fun addr _ => hload addr).ends ht hwords
  obtain ⟨⟨⟩, ⟨t'', io₂⟩, hnote, h3⟩ := bind_eq_ok.mp h2
  cases hnote
  cases h3
  exact ⟨ht', hstart, rfl⟩

theorem store_ok (h : store arena offset count value (s, io) = .ok (u, s', io'))
    (hs : Shows v s) (hmode : io.mode = 0) :
    Shows v s' ∧ StartOk (waddr (v.words (machineRegs + arena)) + offset * bigintWidthWords) ∧
      io' = { io with
        witness := (chunks (waddr (v.words (machineRegs + arena)) + offset * bigintWidthWords) (count / bigintWidthBytes)
          (toLimbsAsc value)).foldl (fun m e => m.insert e.1 e.2) io.witness } := by
  obtain ⟨t, ht, hstart, h1⟩ := start_ok (k := fun addr =>
    onContext (ensure (count ≥ (toLimbsAsc value).length * 4)
      s!"bigint_store: count ({count} bytes) too small for value ({(toLimbsAsc value).length * 4} bytes)") >>= fun _ =>
    onContext (ensure (count % bigintWidthBytes = 0)
      s!"bigint_store: count ({count}) is not a multiple of {bigintWidthBytes}") >>= fun _ =>
    insertWitness (chunks addr (count / bigintWidthBytes) (toLimbsAsc value))) h hs hmode
  obtain ⟨⟨⟩, ⟨t', io₁⟩, hcount, h2⟩ := bind_eq_ok.mp h1
  obtain ⟨hlarge, rfl⟩ := onContext_ok hcount
  obtain ⟨-, rfl⟩ := ensure_ok hlarge
  obtain ⟨⟨⟩, ⟨t'', io₂⟩, hmod, h3⟩ := bind_eq_ok.mp h2
  obtain ⟨hmultiple, rfl⟩ := onContext_ok hmod
  obtain ⟨-, rfl⟩ := ensure_ok hmultiple
  cases h3
  exact ⟨ht, hstart, rfl⟩

variable {host : Host} {opIndex : ℕ} {regs regs' : List ℤ}

/-- An operation loads or stores within user memory exactly when it fits. -/
theorem evalOp_in_user (h : program.evalOp host bigIntIO op opIndex regs (s, io) = .ok (regs', s', io'))
    (hs : Shows v s) (hmode : io.mode = 0) :
    Shows v s' ∧ io'.mode = 0 ∧ (InUser io' ↔ InUser io ∧ OpFits v.words program op) := by
  have hfits (hcode : op.code = .load ∨ op.code = .store) {typ : Ty} (htyp : program.types[op.resultType]? = some typ) :
      OpFits v.words program op ↔ startAddr v.words op + typ.count / 4 ≤ waddr userEndAddr := by
    refine ⟨fun h => h hcode typ htyp, fun h _ typ' htyp' => ?_⟩
    rw [htyp] at htyp'
    cases htyp'
    exact h
  cases evalOp_ok h with
  | computes value hload hstore =>
    exact ⟨hs, hmode, (and_iff_left fun hcode => absurd hcode (not_or.mpr ⟨hload, hstore⟩)).symm⟩
  | @loads typ _ _ hcode htyp hload =>
    obtain ⟨hs', hstart, rfl⟩ := load_ok hload hs hmode
    refine ⟨hs', hmode, ?_⟩
    rw [hfits (.inl hcode) htyp, startAddr, ← wordAddrs_in_user typ hstart]
    constructor
    · intro hin
      have hloaded := forall_mem_append.mp hin.loaded
      exact ⟨⟨hloaded.1, hin.written⟩, hloaded.2⟩
    · rintro ⟨hin, hnew⟩
      exact ⟨forall_mem_append.mpr ⟨hin.loaded, hnew⟩, hin.written⟩
  | @stores typ value _ hcode htyp hstore =>
    obtain ⟨hs', hstart, rfl⟩ := store_ok hstore hs hmode
    refine ⟨hs', hmode, ?_⟩
    rw [hfits (.inr hcode) htyp, startAddr]
    have hinserted := inserted_in_user typ hstart (toLimbsAsc value.natAbs) io.witness
    constructor
    · intro hin
      have hwritten := hinserted.mp hin.written
      exact ⟨⟨hin.loaded, hwritten.1⟩, hwritten.2⟩
    · rintro ⟨hin, hnew⟩
      exact ⟨hin.loaded, hinserted.mpr ⟨hin.written, hnew⟩⟩

theorem evalFrom_in_user (ops : List Op)
    (h : program.evalFrom host bigIntIO opIndex ops regs (s, io) = .ok ((), s', io')) (hs : Shows v s)
    (hmode : io.mode = 0) : Shows v s' ∧ (InUser io' ↔ InUser io ∧ ∀ op ∈ ops, OpFits v.words program op) := by
  induction ops generalizing opIndex regs s io with
  | nil =>
    cases h
    exact ⟨hs, (and_iff_left (forall_mem_nil _)).symm⟩
  | cons op ops ih =>
    obtain ⟨regs', ⟨t, io₁⟩, hop, h⟩ := bind_eq_ok.mp h
    obtain ⟨ht, hmode', hin⟩ := evalOp_in_user hop hs hmode
    obtain ⟨hs', hin'⟩ := ih h ht hmode'
    refine ⟨hs', ?_⟩
    rw [hin', hin, forall_mem_cons, and_assoc]

/-- The bytes of the program that the registers and the header of the blob tell. -/
def programBytes (words : ℕ → Word) : List Byte :=
  ((regionAddrs (words (machineRegs + regT1)) (words (waddr (words (machineRegs + regA0)))).toNat).map words).flatMap toLeBytes

theorem waddr_mul (addr : ByteAddr) : waddr (BitVec.ofNat 32 (waddr addr * 4)) = waddr addr := by
  have hlt := addr.isLt
  unfold waddr
  rw [BitVec.toNat_ofNat]
  omega

theorem loadRegion_runs {addr : ByteAddr}
    (h : c → addr.toNat + n * 4 % 2 ^ 32 < 2 ^ 32 ∧ ∀ a ∈ regionAddrs addr n, ¬ memoryEndAddr ≤ a) :
    RunsIf c Shows (loadRegion addr n) v (((regionAddrs addr n).map v.words).flatMap toLeBytes) v :=
  (ensure_runs fun hc => (h hc).1).bind ((runs_mapM _ v fun a ha => loadU32_runs .load v fun hc => (h hc).2 a ha).bind
    (runs_pure v _))

theorem check_ok {σ ε : Type} {p : Prop} [Decidable p] {t t' : σ} (h : (check p : Eval σ ε Unit) t = .ok ((), t')) : t' = t := by
  unfold check at h
  split_ifs at h
  · cases h
    rfl
  · cases h

theorem evalProgram_ok (h : evalProgram host bytes mode s = .ok (io, s')) :
    ∃ program rest, (decode host : ByteStream Fault Program) bytes = .ok (program, rest) ∧
      program.eval host bigIntIO (s, ⟨mode, .empty, []⟩) = .ok ((), s', io) := by
  unfold evalProgram at h
  split at h
  · cases h
  · rename_i hrun
    cases h
    obtain ⟨⟨program, rest⟩, t, hdecode, heval⟩ := bind_eq_ok.mp hrun
    have hlift : ((decode host : ByteStream Fault Program) bytes).bind
        (fun r => Except.ok (r, ((s, ⟨mode, .empty, []⟩) : Executor × IOState))) = .ok ((program, rest), t) := hdecode
    cases hbytes : (decode host : ByteStream Fault Program) bytes with
    | error e =>
      rw [hbytes] at hlift
      cases hlift
    | ok r =>
      rw [hbytes] at hlift
      cases hlift
      exact ⟨program, rest, rfl, heval⟩

/-- A call of user mode loads and stores within user memory exactly when every operation
of its program fits. -/
theorem ecall_in_user {exec : BigIntExec} (h : ecall host s = .ok (exec, s')) (hs : Shows v s)
    (hmode : v.words (machineRegs + regT0) = 0) :
    ∃ program rest, (decode host : ByteStream Fault Program) (programBytes v.words) = .ok (program, rest) ∧
      (InUser exec.io ↔ ∀ op ∈ program.ops, OpFits v.words program op) := by
  obtain ⟨mode, t₁, hload, h1⟩ := bind_eq_ok.mp h
  obtain ⟨rfl, hs1⟩ := (Executor.loadRegister_runs (c := False) v (.inr rfl) regT0).ends hs hload
  obtain ⟨⟨⟩, t₂, hensure, h2⟩ := bind_eq_ok.mp h1
  obtain ⟨-, rfl⟩ := ensure_ok hensure
  obtain ⟨blobPtr, t₃, hblob, h3⟩ := bind_eq_ok.mp h2
  obtain ⟨rfl, hs3⟩ := (loadAlignedAddr_runs (c := False) False.elim).ends hs1 hblob
  obtain ⟨nondetPtr, t₄, hnondet, h4⟩ := bind_eq_ok.mp h3
  obtain ⟨rfl, hs4⟩ := (loadAlignedAddr_runs (c := False) False.elim).ends hs3 hnondet
  obtain ⟨verifyPtr, t₅, hverify, h5⟩ := bind_eq_ok.mp h4
  obtain ⟨rfl, hs5⟩ := (loadAlignedAddr_runs (c := False) False.elim).ends hs4 hverify
  obtain ⟨constsPtr, t₆, hconsts, h6⟩ := bind_eq_ok.mp h5
  obtain ⟨rfl, hs6⟩ := (loadAlignedAddr_runs (c := False) False.elim).ends hs5 hconsts
  obtain ⟨nondetSize, t₇, hsize, h7⟩ := bind_eq_ok.mp h6
  obtain ⟨rfl, hs7⟩ := (loadU32_runs (c := False) .load v False.elim).ends hs6 hsize
  obtain ⟨verifySize, t₈, hsize', h8⟩ := bind_eq_ok.mp h7
  obtain ⟨rfl, hs8⟩ := (loadU32_runs (c := False) .load v False.elim).ends hs7 hsize'
  obtain ⟨constsSize, t₉, hsize'', h9⟩ := bind_eq_ok.mp h8
  obtain ⟨rfl, hs9⟩ := (loadU32_runs (c := False) .load v False.elim).ends hs8 hsize''
  obtain ⟨⟨⟩, t₁₀, hlarge, h10⟩ := bind_eq_ok.mp h9
  obtain ⟨-, rfl⟩ := ensure_ok hlarge
  obtain ⟨bytes, t₁₁, hregion, h11⟩ := bind_eq_ok.mp h10
  obtain ⟨rfl, hs11⟩ := (loadRegion_runs (c := False) False.elim).ends hs9 hregion
  obtain ⟨io', t₁₂, heval, h12⟩ := bind_eq_ok.mp h11
  obtain ⟨program, rest, hdecode, hprogram⟩ := evalProgram_ok heval
  obtain ⟨⟨⟩, t, hallocates, hrun⟩ := bind_eq_ok.mp hprogram
  obtain rfl := check_ok hallocates
  obtain ⟨⟨⟩, t₁₃, -, h13⟩ := bind_eq_ok.mp h12
  obtain ⟨⟨⟩, t₁₄, -, h14⟩ := bind_eq_ok.mp h13
  cases h14
  refine ⟨program, rest, ?_, ?_⟩
  · rw [regionAddrs, waddr_mul] at hdecode
    exact hdecode
  · have hstart : InUser ⟨v.words (machineRegs + regT0), .empty, []⟩ :=
      ⟨forall_mem_nil _, forall_mem_nil _⟩
    rw [(evalFrom_in_user program.ops hrun hs11 hmode).2]
    exact and_iff_right hstart

/-- A call of user mode that returns has loaded from user memory and written to it alone
exactly when, of each load and store, the count does not lead out of user memory. -/
theorem bigint_in_user_memory_iff (host : Host) (s s' : Executor) (size : ℕ) (hs : s.Sound)
    (hmode : s.pager.word (machineRegs + regT0) = 0) (hrun : ecallExecute host s = .ok (size, s')) :
    ∃ exec t program rest, ecall host s = .ok (exec, t) ∧ writeWitnessToMemory exec.io.witness t = .ok ((), s') ∧
      (Program.decode host : ByteStream Fault Program) (programBytes s.pager.word) = .ok (program, rest) ∧
      (InUser exec.io ↔ ∀ op ∈ program.ops, OpFits s.pager.word program op) := by
  obtain ⟨exec, t, hecall, h⟩ := bind_eq_ok.mp hrun
  obtain ⟨⟨⟩, t', hwrite, h'⟩ := bind_eq_ok.mp h
  cases h'
  obtain ⟨program, rest, hdecode, hin⟩ := ecall_in_user hecall (shows_machineView hs) hmode
  exact ⟨exec, t, program, rest, hecall, hwrite, hdecode, hin⟩

def ShowsIO (v : MachineView × IOState) (s : Executor × IOState) : Prop := Shows v.1 s.1 ∧ s.2 = v.2

theorem onContext_runs {α : Type} {x : Exec α} {a : α} {v' : MachineView} (io : IOState) (h : Runs Shows x v a v') :
    Runs ShowsIO (onContext x) (v, io) a (v', io) := by
  refine runs_of_total fun s hs => ?_
  obtain ⟨s', hrun, hs'⟩ := h.total trivial hs.1
  refine ⟨(s', s.2), ?_, hs', hs.2⟩
  rw [onContext, hrun]

theorem liftIo_runs {σ V ε α : Type} {sees : V → σ → Prop} {x : StateT σ (Except ε) α} {a : α} {v v' : V}
    (h : Runs sees x v a v') : Runs sees (liftIo x) v a v' := by
  refine runs_of_total fun s hs => ?_
  obtain ⟨s', hrun, hs'⟩ := h.total trivial hs
  refine ⟨s', ?_, hs'⟩
  rw [liftIo, hrun]

/-- A load returns when its start passes the check and its end is in memory. -/
theorem load_runs (hlt : arena < regMax) (haligned : isAligned (v.words (machineRegs + arena)))
    (hstart : StartOk (waddr (v.words (machineRegs + arena)) + offset * bigintWidthWords))
    (hend : waddr (v.words (machineRegs + arena)) + offset * bigintWidthWords + (count + 3) / 4 ≤ memoryEndAddr) :
    ∃ value, Runs ShowsIO (load arena offset count) (v, io) value (v, { io with
      loaded := io.loaded ++ wordAddrs (waddr (v.words (machineRegs + arena)) + offset * bigintWidthWords) count }) := by
  have hwords (addr : ℕ) (haddr : addr ∈ wordAddrs (waddr (v.words (machineRegs + arena)) + offset * bigintWidthWords) count) :
      Runs Shows (loadU32 .load addr) v (v.words addr) v := by
    obtain ⟨i, hi, rfl⟩ := mem_map.mp haddr
    rw [mem_range] at hi
    exact loadU32_runs .load v fun _ => by omega
  have hmode : Runs ShowsIO getMode (v, io) io.mode (v, io) :=
    runs_of_total fun s hs => ⟨s, by rw [getMode, hs.2], hs⟩
  have hcheck : Runs Shows (checkBigintAddr (waddr (v.words (machineRegs + arena)) + offset * bigintWidthWords) io.mode) v ()
      v :=
    ensure_runs fun _ => ⟨hstart.1, .inr hstart.2⟩
  have hnote (addrs : List ℕ) :
      Runs ShowsIO (noteLoaded addrs) (v, io) () (v, { io with loaded := io.loaded ++ addrs }) :=
    runs_of_total fun s hs => ⟨_, rfl, hs.1, by rw [hs.2]⟩
  exact ⟨fromLimbsAsc (maskLast count ((wordAddrs _ count).map v.words)),
    (onContext_runs io (loadAlignedAddr_runs fun _ => ⟨hlt, haligned⟩)).bind (hmode.bind ((onContext_runs io hcheck).bind
      ((onContext_runs io (runs_mapM _ v hwords)).bind ((hnote _).bind (runs_pure _ _)))))⟩

theorem aligned_runs {word : Word} (hlt : idx < regMax) (hword : v.words (machineRegs + idx) = word)
    (haligned : isAligned word) : Runs Shows (loadAlignedAddr idx) v (waddr word) v := by
  have hrun := loadAlignedAddr_runs (c := True) (v := v) fun _ => ⟨hlt, hword ▸ haligned⟩
  rwa [hword] at hrun

theorem evalOp_load_runs {typ : Ty} (hcode : op.code = .load) (htyp : program.types[op.resultType]? = some typ)
    (hrounds : typ.Rounds host) (hload : Runs ShowsIO (load op.arena op.offset typ.count) (v, io) value (v, io')) :
    Runs ShowsIO (program.evalOp host bigIntIO op opIndex regs) (v, io) (regs.set opIndex value) (v, io') := by
  unfold evalOp
  rw [hcode]
  dsimp only
  rw [htyp]
  have hcount : Runs ShowsIO (Bibc.index (typ.checkedCount host.overflowChecks) : Eval _ Fault ℕ) (v, io) typ.count (v, io) := by
    rw [(checkedCount_eq_some typ _).mpr ⟨hrounds, rfl⟩]
    exact runs_pure (v, io) _
  exact RunsIf.bind (runs_pure (v, io) typ) (hcount.bind ((liftIo_runs hload).bind (runs_pure (v, io') _)))

theorem evalProgram_runs {rest : List Byte}
    (hdecode : (decode host : ByteStream Fault Program) bytes = .ok (program, rest))
    (heval : Runs ShowsIO (program.eval host bigIntIO) (v, ⟨mode, .empty, []⟩) () (v, io)) :
    Runs Shows (evalProgram host bytes mode) v io v := by
  refine runs_of_total fun s hs => ?_
  obtain ⟨⟨t, io'⟩, hrun, ht, rfl⟩ := heval.total trivial (s := (s, ⟨mode, .empty, []⟩)) ⟨hs, rfl⟩
  have hprogram : runProgram host bigIntIO bytes (s, ⟨mode, .empty, []⟩) = .ok ((), t, io') := by
    refine bind_eq_ok.mpr ⟨(program, rest), (s, ⟨mode, .empty, []⟩), ?_, hrun⟩
    show ((decode host : ByteStream Fault Program) bytes).bind _ = _
    rw [hdecode]
    rfl
  refine ⟨t, ?_, ht⟩
  rw [evalProgram, hprogram]

theorem drainRegion_runs (v : MachineView) (addr : ByteAddr) : Runs Shows (drainRegion addr 0) v () v :=
  (ensure_runs fun _ => addr.isLt).bind (runs_pure v ())

def longLoadType : Ty := ⟨0x10020, 0, 0, 0⟩

def longLoadOp : Op := ⟨.load, 0, 11 * 2 ^ 16, 0⟩

/-- One load that starts below the end of user memory and leads past it. -/
def longLoad : Program := ⟨[], [longLoadType], [], [longLoadOp]⟩

def longLoadWords : List Word := [0x63626962, 1, 0, 1, 0, 1, 0x10020, 0, 0, 0, 0, 0, 0, 0, 3, 0xb]

/-- The memory of a call of that program. -/
def longLoadImage : MemoryImage where
  pages := (OrderedMap.empty.insert 64
    (longLoadWords.zipIdx.foldl (fun page w => page.store (0x4004 + w.2) w.1) (Page.zero.store 0x4000 16))).insert regsPage
    (((((Page.zero.store (machineRegs + regA0) 0x10000).store (machineRegs + regA1) 0xbffefff0).store
      (machineRegs + regT1) 0x10010).store (machineRegs + regT2) 0x10020).store (machineRegs + regT3) 0x10020)
  isZero := fun _ => true

theorem decode_longLoad :
    (decode largeHost : ByteStream Fault Program) (longLoadWords.flatMap toLeBytes) = .ok (longLoad, []) := by
  have hsome : ((decode largeHost : ByteStream Fault Program) (longLoadWords.flatMap toLeBytes)).toOption =
      some (longLoad, []) := by
    decide
  cases hdecode : (decode largeHost : ByteStream Fault Program) (longLoadWords.flatMap toLeBytes) with
  | error e =>
    rw [hdecode] at hsome
    cases hsome
  | ok r =>
    rw [hdecode] at hsome
    exact congrArg _ (Option.some.inj hsome)

structure LongLoadCall (v : MachineView) : Prop where
  mode : v.words (machineRegs + regT0) = 0
  blob : v.words (machineRegs + regA0) = 0x10000
  arena : v.words (machineRegs + regA1) = 0xbffefff0
  nondet : v.words (machineRegs + regT1) = 0x10010
  verify : v.words (machineRegs + regT2) = 0x10020
  consts : v.words (machineRegs + regT3) = 0x10020
  header : [v.words 0x4000, v.words 0x4001, v.words 0x4002] = [16, 0, 0]
  program : (regionAddrs 0x10010 16).map v.words = longLoadWords

theorem LongLoadCall.programBytes (h : LongLoadCall v) : programBytes v.words = longLoadWords.flatMap toLeBytes := by
  have hblob : waddr 0x10000 = 0x4000 := by decide
  have hsize : v.words 0x4000 = 16 := (cons.inj h.header).1
  rw [Bigint.programBytes, h.blob, h.nondet, hblob, hsize]
  exact congrArg (flatMap toLeBytes) h.program

theorem LongLoadCall.runs (h : LongLoadCall v) : ∃ io, Runs Shows (ecall largeHost) v ⟨0, io⟩ v ∧ io.witness = .empty := by
  have hblob : waddr 0x10000 = 0x4000 := by decide
  obtain ⟨hsize, hrest⟩ := cons.inj h.header
  obtain ⟨hverify, hrest⟩ := cons.inj hrest
  obtain ⟨hconsts, -⟩ := cons.inj hrest
  have hword {addr : ℕ} {word : Word} (haddr : addr < memoryEndAddr) (heq : v.words addr = word) :
      Runs Shows (loadU32 .load addr) v word v :=
    heq ▸ loadU32_runs .load v fun _ => not_le.mpr haddr
  have hmode : Runs Shows (Executor.loadRegister machineRegs regT0) v 0 v := by
    have hrun := Executor.loadRegister_runs (c := True) v (.inr rfl) regT0
    rwa [h.mode] at hrun
  have hregion : Runs Shows (loadRegion (BitVec.ofNat 32 (waddr 0x10010 * 4)) 16) v (longLoadWords.flatMap toLeBytes) v := by
    have haddr : BitVec.ofNat 32 (waddr 0x10010 * 4) = 0x10010 := by decide
    rw [haddr, ← h.program]
    refine loadRegion_runs fun _ => ⟨by decide, ?_⟩
    decide
  have harena : v.words (machineRegs + longLoadOp.arena) = 0xbffefff0 := by
    have hidx : longLoadOp.arena = 11 := by decide
    rw [hidx]
    exact h.arena
  have hload : ∃ value, Runs ShowsIO (load longLoadOp.arena longLoadOp.offset longLoadType.count) (v, ⟨0, .empty, []⟩)
      value (v, _) :=
    load_runs (show longLoadOp.arena < regMax by decide) (by rw [harena]; decide)
      (by rw [harena]; exact ⟨by decide, by decide⟩) (by rw [harena]; decide)
  obtain ⟨value, hload⟩ := hload
  have hrounds : longLoadType.Rounds largeHost := fun _ => by decide
  obtain ⟨io, heval, hempty⟩ : ∃ io, Runs ShowsIO (longLoad.eval largeHost bigIntIO) (v, ⟨0, .empty, []⟩) () (v, io) ∧
      io.witness = .empty :=
    ⟨_, RunsIf.bind (runs_pure _ ()) ((evalOp_load_runs rfl rfl hrounds hload).bind (runs_pure _ ())), rfl⟩
  refine ⟨io, hmode.bind ((ensure_runs fun _ => .inl rfl).bind ((aligned_runs (by decide) h.blob (by decide)).bind
    ((aligned_runs (by decide) h.nondet (by decide)).bind ((aligned_runs (by decide) h.verify (by decide)).bind
    ((aligned_runs (by decide) h.consts (by decide)).bind ?_))))), hempty⟩
  rw [hblob]
  exact (hword (by decide) hsize).bind ((hword (by decide) hverify).bind ((hword (by decide) hconsts).bind
    ((ensure_runs fun _ => by decide).bind (hregion.bind ((evalProgram_runs decode_longLoad heval).bind
      ((drainRegion_runs v _).bind ((drainRegion_runs v _).bind (runs_pure v _))))))))

theorem LongLoadCall.executes {s : Executor} (hs : s.Sound) (h : LongLoadCall s.machineView) :
    ∃ s', ecallExecute largeHost s = .ok (0, s') := by
  obtain ⟨io, hrun, hempty⟩ := h.runs
  obtain ⟨s', hecall, -⟩ := hrun.total trivial (shows_machineView hs)
  refine ⟨s', bind_eq_ok.mpr ⟨_, s', hecall, bind_eq_ok.mpr ⟨(), s', ?_, rfl⟩⟩⟩
  rw [hempty]
  rfl

theorem longLoad_sound : ∃ m, PagedMemory.new longLoadImage false = some m ∧
    Sound ⟨0xc0000000, 0, 1, 0, m⟩ ∧ LongLoadCall (machineView ⟨0xc0000000, 0, 1, 0, m⟩) := by
  have hwords : ((PagedMemory.new longLoadImage false).map fun m =>
      ([regT0, regA0, regA1, regT1, regT2, regT3].map (fun idx : Fin 32 => m.word (machineRegs + idx)),
        [0x4000, 0x4001, 0x4002].map m.word, (regionAddrs 0x10010 16).map m.word)) =
      some ([0, 0x10000, 0xbffefff0, 0x10010, 0x10020, 0x10020], [16, 0, 0], longLoadWords) := by
    decide
  obtain ⟨m, hm, hwords⟩ := Option.map_eq_some_iff.mp hwords
  obtain ⟨hregs, hrest⟩ := Prod.ext_iff.mp hwords
  obtain ⟨hheader, hprogram⟩ := Prod.ext_iff.mp hrest
  obtain ⟨hmode, hregs⟩ := cons.inj hregs
  obtain ⟨hblob, hregs⟩ := cons.inj hregs
  obtain ⟨harena, hregs⟩ := cons.inj hregs
  obtain ⟨hnondet, hregs⟩ := cons.inj hregs
  obtain ⟨hverify, hregs⟩ := cons.inj hregs
  obtain ⟨hconsts, -⟩ := cons.inj hregs
  exact ⟨m, hm, sound_of_run hm (forall_mem_nil MemoryOp.Valid) rfl rfl,
    ⟨hmode, hblob, harena, hnondet, hverify, hconsts, hheader, hprogram⟩⟩

theorem bigint_in_user_memory_sample : ∃ m s' exec t program rest, PagedMemory.new longLoadImage false = some m ∧
    ecall largeHost ⟨0xc0000000, 0, 1, 0, m⟩ = .ok (exec, t) ∧ writeWitnessToMemory exec.io.witness t = .ok ((), s') ∧
      (Program.decode largeHost : ByteStream Fault Program) (programBytes m.word) = .ok (program, rest) ∧
      (InUser exec.io ↔ ∀ op ∈ program.ops, OpFits m.word program op) := by
  obtain ⟨m, hm, hsound, hcall⟩ := longLoad_sound
  obtain ⟨s', hrun⟩ := hcall.executes hsound
  obtain ⟨exec, t, program, rest, h⟩ := bigint_in_user_memory_iff largeHost _ s' 0 hsound hcall.mode hrun
  exact ⟨m, s', exec, t, program, rest, hm, h⟩

/-- The long load is from kernel memory at its end, and the call returns all the same. -/
theorem bigint_leaves_user_memory : ¬ ∀ (s s' : Executor) (size : ℕ), s.Sound → s.pager.word (machineRegs + regT0) = 0 →
    ecallExecute largeHost s = .ok (size, s') → ∀ exec t, ecall largeHost s = .ok (exec, t) → InUser exec.io := by
  intro h
  obtain ⟨m, -, hsound, hcall⟩ := longLoad_sound
  obtain ⟨s', hrun⟩ := hcall.executes hsound
  obtain ⟨exec, t, hecall, -⟩ := bind_eq_ok.mp hrun
  obtain ⟨program, rest, hdecode, hin⟩ := ecall_in_user hecall (shows_machineView hsound) hcall.mode
  rw [hcall.programBytes, decode_longLoad] at hdecode
  cases hdecode
  have hfits := hin.mp (h _ s' 0 hsound hcall.mode hrun exec t hecall) longLoadOp (List.mem_singleton_self _)
    (.inl rfl) longLoadType rfl
  have hstart : startAddr (machineView ⟨0xc0000000, 0, 1, 0, m⟩).words longLoadOp =
      waddr 0xbffefff0 + longLoadOp.offset * bigintWidthWords := by
    have hidx : longLoadOp.arena = 11 := by decide
    rw [startAddr, hidx]
    exact congrArg (fun w => waddr w + longLoadOp.offset * bigintWidthWords) hcall.arena
  rw [hstart] at hfits
  exact absurd hfits (by decide)

end VerifiableCompute.Rv32im.Bigint
