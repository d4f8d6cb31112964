import VerifiableCompute.Lib.Checked
import VerifiableCompute.Lib.Table

/-! The trace of the preflight. Blocks of all types come from one buffer: a type has a cursor into the row that it fills, and opens
another row where the buffer is free when that one is full. A row knows where its blocks begin and how many there are; at the end
the rows are sorted by type and the blocks are read back. -/

namespace VerifiableCompute.Rv32im.Preflight

open Lib List Function

abbrev U8 := BitVec 8
abbrev U32 := BitVec 32

/-! ### Block types -/

inductive BlockType
  | globals | decode | instResume | instSuspend | instReg | instImm | instLoad | instStore | instBranch | instJal | instJalr | instLui
  | instAuipc | instEcall | instTrap | instMret | ecallTerminate | ecallRead | ecallWrite | ecallP2 | ecallBigInt | p2Step | readByte
  | readWord | bigInt | unitAddSub | unitBit | unitLt | unitMul | unitDiv | unitShift | p2ExtRound | p2IntRounds | p2Block | pageInNode
  | pageInPart | pageInPage | pageOutNode | pageOutPart | pageOutPage | pageUncle | makeTable | empty
  deriving DecidableEq

open BlockType

namespace BlockType

/-- In the order of their numbers. -/
def all : List BlockType :=
  [globals, decode, instResume, instSuspend, instReg, instImm, instLoad, instStore, instBranch, instJal, instJalr, instLui,
    instAuipc, instEcall, instTrap, instMret, ecallTerminate, ecallRead, ecallWrite, ecallP2, ecallBigInt, p2Step, readByte,
    readWord, bigInt, unitAddSub, unitBit, unitLt, unitMul, unitDiv, unitShift, p2ExtRound, p2IntRounds, p2Block, pageInNode,
    pageInPart, pageInPage, pageOutNode, pageOutPart, pageOutPage, pageUncle, makeTable, empty]

def num (ty : BlockType) : ℕ := all.idxOf ty

/-- `try_from`. -/
def ofNum? (v : ℕ) : Option BlockType := all[v]?

def countPerRow : BlockType → ℕ
  | globals => 1
  | decode => 2
  | instResume => 1
  | instSuspend => 1
  | instReg => 5
  | instImm => 5
  | instLoad => 3
  | instStore => 3
  | instBranch => 4
  | instJal => 7
  | instJalr => 6
  | instLui => 9
  | instAuipc => 7
  | instEcall => 1
  | instTrap => 1
  | instMret => 1
  | ecallTerminate => 1
  | ecallRead => 1
  | ecallWrite => 1
  | ecallP2 => 1
  | ecallBigInt => 1
  | p2Step => 1
  | readByte => 1
  | readWord => 4
  | bigInt => 1
  | unitAddSub => 16
  | unitBit => 2
  | unitLt => 9
  | unitMul => 2
  | unitDiv => 3
  | unitShift => 5
  | p2ExtRound => 2
  | p2IntRounds => 2
  | p2Block => 3
  | pageInNode => 1
  | pageInPart => 4
  | pageInPage => 1
  | pageOutNode => 1
  | pageOutPart => 4
  | pageOutPage => 1
  | pageUncle => 1
  | makeTable => 3
  | empty => 0

/-- `size_of` the witness. The one without fields has a byte all the same. -/
def bytes : BlockType → ℕ
  | globals => 4 * 27
  | decode => 4 * 15
  | instResume => 4 * 13
  | instSuspend => 4 * 10
  | instReg => 4 * 19
  | instImm => 4 * 18
  | instLoad => 4 * 19
  | instStore => 4 * 19
  | instBranch => 4 * 18
  | instJal => 4 * 13
  | instJalr => 4 * 15
  | instLui => 4 * 12
  | instAuipc => 4 * 13
  | instEcall => 4 * 13
  | instTrap => 4 * 9
  | instMret => 4 * 9
  | ecallTerminate => 4 * 39
  | ecallRead => 4 * 20
  | ecallWrite => 4 * 16
  | ecallP2 => 4 * 77
  | ecallBigInt => 4 * 16
  | p2Step => 4 * 100
  | readByte => 4 * 7
  | readWord => 4 * 6
  | bigInt => 4 * 20
  | unitAddSub => 4 * 6
  | unitBit => 4 * 6
  | unitLt => 4 * 6
  | unitMul => 4 * 6
  | unitDiv => 4 * 6
  | unitShift => 4 * 6
  | p2ExtRound => 4 * 26
  | p2IntRounds => 4 * 25
  | p2Block => 4 * 51
  | pageInNode => 4 * 25
  | pageInPart => 4 * 25
  | pageInPage => 4 * 9
  | pageOutNode => 4 * 25
  | pageOutPart => 4 * 33
  | pageOutPage => 4 * 9
  | pageUncle => 4 * 9
  | makeTable => 4 * 2
  | empty => 1

/-- The words of a witness. -/
def size (ty : BlockType) : ℕ := ty.bytes / 4

def rowSize (ty : BlockType) : ℕ := ty.countPerRow * ty.size

variable (ty : BlockType)

theorem ofNum?_num : ofNum? ty.num = some ty := by cases ty <;> rfl

theorem num_lt : ty.num < 43 := by cases ty <;> decide

theorem num_injective {ty ty' : BlockType} (h : ty.num = ty'.num) : ty = ty' := by
  have heq := ofNum?_num ty
  rw [h, ofNum?_num ty'] at heq
  exact (Option.some.inj heq).symm

theorem map_num_all : all.map num = range 43 := by decide

theorem countPerRow_le : ty.countPerRow ≤ 16 := by cases ty <;> decide

theorem size_le : ty.size ≤ 100 := by cases ty <;> decide

theorem pos_of_words {ty : BlockType} (h : ty.bytes % 4 = 0) : 0 < ty.size ∧ 0 < ty.countPerRow ∧ ty ≠ empty := by
  cases ty with
  | empty => exact absurd h (by decide)
  | _ => exact ⟨by decide, by decide, by decide⟩

def u8 (ty : BlockType) : U8 := .ofNat 8 ty.num

theorem toNat_u8 : ty.u8.toNat = ty.num := by
  rw [u8, BitVec.toNat_ofNat, Nat.mod_eq_of_lt (by have := num_lt ty; omega)]

end BlockType

/-- A witness as the words that it is cast to. -/
@[ext] structure Witness where
  ty : BlockType
  words : List U32
  length_words : words.length = ty.size

/-! ### The buffer -/

structure Buffer where
  length : ℕ
  get : ℕ → U32

namespace Buffer

def slice (b : Buffer) (start n : ℕ) : List U32 := (List.range n).map fun k => b.get (start + k)

def read (b : Buffer) (start n : ℕ) : Option (List U32) := if start + n ≤ b.length then some (b.slice start n) else none

def write (b : Buffer) (start : ℕ) (words : List U32) : Option Buffer :=
  if start + words.length ≤ b.length then
    some ⟨b.length, fun k => if start ≤ k ∧ k < start + words.length then words.getD (k - start) 0 else b.get k⟩
  else none

variable {b b' : Buffer} {start : ℕ} {words : List U32}

@[simp] theorem length_slice (b : Buffer) (start n : ℕ) : (b.slice start n).length = n := by rw [slice, length_map, length_range]

section

variable (h : b.write start words = some b')

include h

theorem length_write : b'.length = b.length ∧ start + words.length ≤ b.length := by
  unfold write at h
  split at h
  · next hle =>
    cases h
    exact ⟨rfl, hle⟩
  · cases h

theorem slice_write : b'.slice start words.length = words := by
  unfold write at h
  split at h
  · cases h
    apply ext_getElem
    · exact length_slice _ _ _
    · intro k hk hk'
      simp only [slice, getElem_map, getElem_range]
      rw [if_pos ⟨Nat.le_add_right _ _, Nat.add_lt_add_left hk' _⟩, Nat.add_sub_cancel_left, getD_eq_getElem _ _ hk']
  · cases h

theorem slice_write_of_apart {at' n : ℕ} (hapart : at' + n ≤ start ∨ start + words.length ≤ at') :
    b'.slice at' n = b.slice at' n := by
  unfold write at h
  split at h
  · cases h
    refine map_congr_left fun k hk => ?_
    rw [mem_range] at hk
    exact if_neg (by omega)
  · cases h

end

theorem read_eq {n : ℕ} (h : start + n ≤ b.length) : b.read start n = some (b.slice start n) := if_pos h

end Buffer

/-! ### Traces -/

structure RowInfo where
  rowType : U8
  blockCount : U8
  auxOffset : U32

structure BlockCursor where
  row : ℕ
  start : ℕ
  stop : ℕ

structure Trace where
  rows : List RowInfo
  rowNext : ℕ
  aux : Buffer
  auxNext : ℕ
  globals : ℕ
  cursors : BlockType → BlockCursor

open Trace

namespace Trace

def openRow (t : Trace) (ty : BlockType) : Option Trace :=
  if t.rowNext < t.rows.length then
    some { t with
      rows := t.rows.set t.rowNext ⟨ty.u8, 0, .ofNat 32 t.auxNext⟩
      rowNext := t.rowNext + 1
      auxNext := t.auxNext + ty.rowSize
      cursors := Function.update t.cursors ty ⟨t.rowNext, t.auxNext, t.auxNext + ty.rowSize⟩ }
  else none

/-- The next block of the row that the cursor is in. -/
def fillRow (t : Trace) (wit : Witness) : Option (Trace × ℕ) := do
  let cursor := t.cursors wit.ty
  let row ← t.rows[cursor.row]?
  let aux ← t.aux.write cursor.start wit.words
  some ({ t with
    rows := t.rows.set cursor.row { row with blockCount := row.blockCount + 1 }
    aux := aux
    cursors := Function.update t.cursors wit.ty { cursor with start := cursor.start + wit.ty.size } }, cursor.start)

/-- Adds a block and returns its index. A witness that is not of whole words, and a row or a word that there is not, are panics. -/
def addBlock (t : Trace) (wit : Witness) : Option (Trace × ℕ) :=
  if wit.ty.bytes % 4 ≠ 0 then none
  else if (t.cursors wit.ty).start = (t.cursors wit.ty).stop then (t.openRow wit.ty).bind fun t => t.fillRow wit
  else t.fillRow wit

def getBlock (t : Trace) (ty : BlockType) (idx : ℕ) : Option (List U32) := t.aux.read idx ty.size

/-- A write through `get_block_mut`. -/
def setBlock (t : Trace) (idx : ℕ) (words : List U32) : Option Trace := (t.aux.write idx words).map fun aux => { t with aux }

/-- All zero, but for the arrays that are filled with zeros. -/
def globalsWitness : Witness := ⟨.globals, List.replicate 27 0, rfl⟩

def new (rows : List RowInfo) (aux : Buffer) : Option Trace :=
  (addBlock ⟨rows, 0, aux, 0, 0, fun _ => ⟨0, 0, 0⟩⟩ globalsWitness).map fun s => { s.1 with globals := s.2 }

def getRowCount (t : Trace) : ℕ := t.rowNext

def emptyRow : RowInfo := ⟨BlockType.empty.u8, 0, 0⟩

/-- The rows that are left are made empty, and all are sorted by their type. -/
def finalize (t : Trace) : Trace :=
  { t with
    rows := (t.rows.take t.rowNext ++ List.replicate (t.rows.length - t.rowNext) emptyRow).insertionSort
      fun a b => a.rowType.toNat ≤ b.rowType.toNat
    rowNext := max t.rowNext t.rows.length }

end Trace

def decodeWitness (aux : Buffer) (ty : BlockType) (offset i : ℕ) : Option Witness :=
  if offset + i * ty.size + ty.size ≤ aux.length then
    some ⟨ty, aux.slice (offset + i * ty.size) ty.size, Buffer.length_slice _ _ _⟩
  else none

def decodeRow (aux : Buffer) (row : RowInfo) : Option (List Witness) := do
  let ty ← BlockType.ofNum? row.rowType.toNat
  (List.range row.blockCount.toNat).mapM fun i => decodeWitness aux ty row.auxOffset.toNat i

def decodeTrace (rows : List RowInfo) (aux : Buffer) : Option (List Witness) := (rows.mapM (decodeRow aux)).map List.flatten

/-! ### Use of a trace -/

/-- What is done with a trace: a block is added, or the words of one that was added are written. -/
inductive Op
  | add (wit : Witness)
  | write (n : ℕ) (words : List U32)

/-- A trace with the indices that were returned, and the types that they are of. -/
abbrev Used := Trace × List (BlockType × ℕ)

def Op.apply : Op → Used → Option Used
  | add wit, s => (s.1.addBlock wit).map fun r => (r.1, s.2 ++ [(wit.ty, r.2)])
  | write n words, s => do
    let entry ← s.2[n]?
    if words.length = entry.1.size then (s.1.setBlock entry.2 words).map fun t => (t, s.2) else none

def run (ops : List Op) (s : Used) : Option Used := ops.foldlM (fun s op => op.apply s) s

/-- The values of all blocks: those that were added, with what was written to them last. -/
def Op.value : Op → List Witness → List Witness
  | add wit, ws => ws ++ [wit]
  | write n words, ws => ws.modify n fun w => if h : words.length = w.ty.size then ⟨w.ty, words, h⟩ else w

def values (ops : List Op) (ws : List Witness) : List Witness := ops.foldl (fun ws op => op.value ws) ws

/-! ### The layout -/

/-- A row as it is laid out, in numbers that do not wrap. -/
structure Row where
  ty : BlockType
  base : ℕ
  count : ℕ

namespace Row

def info (r : Row) : RowInfo := ⟨r.ty.u8, .ofNat 8 r.count, .ofNat 32 r.base⟩

def slots (r : Row) : List ℕ := (List.range r.count).map fun i => r.base + i * r.ty.size

def more (r : Row) : Row := { r with count := r.count + 1 }

theorem slots_more (r : Row) : r.more.slots = r.slots ++ [r.base + r.count * r.ty.size] := by
  simp only [slots, more, range_succ, map_append, map_singleton]

end Row

/-- Rows one behind the other. -/
def Packed : ℕ → List Row → ℕ → Prop
  | a, [], b => a = b
  | a, r :: rs, b => r.base = a ∧ Packed (a + r.ty.rowSize) rs b

variable {a b k perRow : ℕ} {rs rows : List Row} {r : Row} {ws : List Witness}

theorem packed_append {rs' : List Row} : Packed a (rs ++ rs') b ↔ ∃ c, Packed a rs c ∧ Packed c rs' b := by
  induction rs generalizing a with
  | nil => simp [Packed]
  | cons r rs ih => simp [Packed, ih, and_assoc]

/-- Rows lie between the ends, and two of them apart. -/
theorem Packed.within (h : Packed a rs b) :
    a ≤ b ∧ (∀ r ∈ rs, a ≤ r.base ∧ r.base + r.ty.rowSize ≤ b) ∧ rs.Pairwise fun r r' => r.base + r.ty.rowSize ≤ r'.base := by
  induction rs generalizing a with
  | nil =>
    have heq : a = b := h
    exact ⟨heq.le, fun r hr => absurd hr not_mem_nil, Pairwise.nil⟩
  | cons r rs ih =>
    obtain ⟨hbase, h⟩ := h
    obtain ⟨hle, hwithin, hpairwise⟩ := ih h
    refine ⟨by omega, forall_mem_cons.mpr ⟨by omega, fun r' hr' => ?_⟩, pairwise_cons.mpr ⟨fun r' hr' => ?_, hpairwise⟩⟩
    · have := hwithin r' hr'
      omega
    · have := hwithin r' hr'
      omega

theorem Row.slot_le (hcount : r.count ≤ r.ty.countPerRow) {i : ℕ} (hi : i < r.count) :
    r.base + i * r.ty.size + r.ty.size ≤ r.base + r.ty.rowSize := by
  have hmul : (i + 1) * r.ty.size ≤ r.ty.countPerRow * r.ty.size := Nat.mul_le_mul_right _ (by omega)
  rw [Nat.add_mul, Nat.one_mul] at hmul
  unfold rowSize
  omega

/-- The cursor of a type: all its rows are full, or the cursor is in the last of them, which is not. -/
inductive CursorAt (rows : List Row) (ty : BlockType) (c : BlockCursor) : Prop
  | full (h : c.start = c.stop) (hfull : ∀ r ∈ rows, r.ty = ty → r.count = ty.countPerRow)
  | filling (r : Row) (hrow : rows[c.row]? = some r) (hty : r.ty = ty) (hcount : r.count < ty.countPerRow)
    (hstart : c.start = r.base + r.count * ty.size) (hstop : c.stop = r.base + ty.rowSize)
    (hothers : ∀ k r', rows[k]? = some r' → r'.ty = ty → k ≠ c.row → k < c.row ∧ r'.count = ty.countPerRow)

theorem exists_append (h : rows[k]? = some r) : ∃ before after, rows = before ++ r :: after ∧
    before.length = k ∧ ∀ r', rows.set k r' = before ++ r' :: after := by
  obtain ⟨hk, rfl⟩ := List.getElem?_eq_some_iff.mp h
  refine ⟨rows.take k, rows.drop (k + 1), ?_, ?_, fun r' => ?_⟩
  · rw [List.getElem_cons_drop, List.take_append_drop]
  · rw [List.length_take, Nat.min_eq_left hk.le]
  · rw [List.set_eq_take_append_cons_drop, if_pos hk]

theorem filter_after {before after : List Row} {ty : BlockType} (hrows : rows = before ++ r :: after)
    (hothers : ∀ k r', rows[k]? = some r' → r'.ty = ty → k ≠ before.length → k < before.length ∧ r'.count = ty.countPerRow) :
    (after.filter fun r' => r'.ty = ty) = [] := by
  rw [filter_eq_nil_iff]
  intro r' hr' heq
  rw [decide_eq_true_eq] at heq
  obtain ⟨j, hj, rfl⟩ := mem_iff_getElem.mp hr'
  have hk : rows[before.length + (j + 1)]? = some (after[j]) := by
    rw [hrows, getElem?_append_right (Nat.le_add_right _ _), Nat.add_sub_cancel_left, getElem?_cons_succ,
      getElem?_eq_getElem hj]
  have := (hothers _ _ hk heq (by omega)).1
  omega

/-- What holds of all rows, and of one of them with one block more. -/
theorem forall_mem_set {P : Row → Prop} {x : Row} (h : ∀ r ∈ rows, P r) (hx : P x) : ∀ r ∈ rows.set k x, P r := by
  intro r' hr'
  obtain hmem | rfl := mem_or_eq_of_mem_set hr'
  · exact h r' hmem
  · exact hx

section More

variable {ty : BlockType} {c : BlockCursor}

/-- The row of the cursor has one block more, and the cursor goes behind it. -/
theorem CursorAt.more (hrow : rows[c.row]? = some r) (hty : r.ty = ty) (hcount : r.count < ty.countPerRow)
    (hstart : c.start = r.base + r.count * ty.size) (hstop : c.stop = r.base + ty.rowSize)
    (hothers : ∀ k r', rows[k]? = some r' → r'.ty = ty → k ≠ c.row → k < c.row ∧ r'.count = ty.countPerRow) :
    CursorAt (rows.set c.row r.more) ty { c with start := c.start + ty.size } := by
  have hlt : c.row < rows.length := (List.getElem?_eq_some_iff.mp hrow).1
  have hnext : r.base + r.count * ty.size + ty.size = r.base + (r.count + 1) * ty.size := by ring
  by_cases hlast : r.count + 1 < ty.countPerRow
  · refine .filling r.more (by rw [List.getElem?_set_self hlt]) hty hlast ?_ hstop fun k r' hk hr' hne => ?_
    · dsimp only
      rw [hstart, hnext]
      rfl
    · rw [List.getElem?_set_ne (Ne.symm hne)] at hk
      exact hothers k r' hk hr' hne
  · have hper : r.count + 1 = ty.countPerRow := by omega
    refine .full ?_ fun r' hr' hty' => ?_
    · dsimp only
      rw [hstart, hstop, hnext, hper]
      rfl
    · obtain ⟨k, hk⟩ := List.mem_iff_getElem?.mp hr'
      by_cases hne : k = c.row
      · rw [hne, List.getElem?_set_self hlt] at hk
        cases hk
        exact hper
      · rw [List.getElem?_set_ne (Ne.symm hne)] at hk
        exact (hothers k r' hk hty' hne).2

/-- The cursors of other types stay. -/
theorem CursorAt.set_other (h : CursorAt rows ty c) (hrow : rows[k]? = some r) (hne : r.ty ≠ ty) :
    CursorAt (rows.set k r.more) ty c := by
  have hlt : k < rows.length := (List.getElem?_eq_some_iff.mp hrow).1
  cases h with
  | full heq hfull => exact .full heq (forall_mem_set hfull fun heq => absurd heq hne)
  | filling r' hrow' hty' hcount' hstart' hstop' hothers' =>
    have hother : k ≠ c.row := by
      intro heq
      rw [heq, hrow'] at hrow
      cases hrow
      exact hne hty'
    refine .filling r' (by rw [List.getElem?_set_ne hother, hrow']) hty' hcount' hstart' hstop' fun j r₂ hj hr2 hj' => ?_
    by_cases hkeq : k = j
    · rw [← hkeq, List.getElem?_set_self hlt] at hj
      cases hj
      exact absurd hr2 hne
    · rw [List.getElem?_set_ne hkeq] at hj
      exact hothers' j r₂ hj hr2 hj'

theorem slots_set (hrow : rows[k]? = some r)
    (hothers : ∀ j r', rows[j]? = some r' → r'.ty = r.ty → j ≠ k → j < k ∧ r'.count = r.ty.countPerRow) (ty : BlockType) :
    ((rows.set k r.more).filter fun r' => r'.ty = ty).flatMap Row.slots =
      (rows.filter fun r' => r'.ty = ty).flatMap Row.slots ++ if r.ty = ty then [r.base + r.count * r.ty.size] else [] := by
  obtain ⟨before, after, hrows, hlength, hset⟩ := exists_append hrow
  rw [hset, hrows, List.filter_append, List.filter_append, List.flatMap_append, List.flatMap_append]
  by_cases hty : r.ty = ty
  · subst hty
    have hafter := filter_after hrows fun j r' hj hr' hne => hlength ▸ hothers j r' hj hr' (hlength ▸ hne)
    have hold : ((r :: after).filter fun r' => r'.ty = r.ty) = [r] := by
      simp [hafter]
    have hmore : ((r.more :: after).filter fun r' => r'.ty = r.ty) = [r.more] := by
      simp [Row.more, hafter]
    rw [hold, hmore]
    simp [Row.slots_more]
  · have hold : ((r :: after).filter fun r' => r'.ty = ty) = after.filter fun r' => r'.ty = ty := by
      simp [hty]
    have hmore : ((r.more :: after).filter fun r' => r'.ty = ty) = after.filter fun r' => r'.ty = ty := by
      simp [Row.more, hty]
    rw [hold, hmore, if_neg hty, append_nil]

end More

/-- How the rows and the indices that were returned lie in a trace. -/
structure Layout (t : Trace) (rows : List Row) (entries : List (BlockType × ℕ)) : Prop where
  length : rows.length = t.rowNext
  room : t.rowNext ≤ t.rows.length
  infos : t.rows.take t.rowNext = rows.map Row.info
  packed : Packed 0 rows t.auxNext
  words : ∀ r ∈ rows, r.ty.bytes % 4 = 0
  counts : ∀ r ∈ rows, r.count ≤ r.ty.countPerRow
  cursors (ty : BlockType) : CursorAt rows ty (t.cursors ty)
  slots (ty : BlockType) : ((entries.filter fun e => e.1 = ty).map fun e => e.2) = (rows.filter fun r => r.ty = ty).flatMap Row.slots

namespace Layout

variable {t t' : Trace} {rows : List Row} {entries : List (BlockType × ℕ)} {e : BlockType × ℕ}

variable (h : Layout t rows entries)

include h

theorem exists_slot (he : e ∈ entries) : ∃ r ∈ rows, r.ty = e.1 ∧ ∃ i < r.count, e.2 = r.base + i * r.ty.size := by
  have hmem : e.2 ∈ (entries.filter fun e' => e'.1 = e.1).map fun e => e.2 :=
    mem_map.mpr ⟨e, mem_filter.mpr ⟨he, decide_eq_true rfl⟩, rfl⟩
  rw [h.slots e.1] at hmem
  obtain ⟨r, hr, hslot⟩ := mem_flatMap.mp hmem
  rw [mem_filter, decide_eq_true_eq] at hr
  obtain ⟨i, hi, heq⟩ := mem_map.mp hslot
  exact ⟨r, hr.1, hr.2, i, mem_range.mp hi, heq.symm⟩

theorem openRow {ty : BlockType} (hwords : ty.bytes % 4 = 0)
    (hcursor : (t.cursors ty).start = (t.cursors ty).stop) (ht : t.openRow ty = some t') :
    Layout t' (rows ++ [⟨ty, t.auxNext, 0⟩]) entries ∧ t'.aux = t.aux ∧ (∀ r ∈ rows, r.ty = ty → r.count = ty.countPerRow) ∧
      (t'.cursors ty).start ≠ (t'.cursors ty).stop := by
  obtain ⟨hsize, hper, -⟩ := pos_of_words hwords
  have hrowSize : 0 < ty.rowSize := Nat.mul_pos hper hsize
  have hfull : ∀ r ∈ rows, r.ty = ty → r.count = ty.countPerRow := by
    cases h.cursors ty with
    | full _ hfull => exact hfull
    | filling r hrow hty hcount hstart hstop hothers =>
      have hlt : r.count * ty.size < ty.rowSize := Nat.mul_lt_mul_of_pos_right hcount hsize
      omega
  unfold Trace.openRow at ht
  split at ht
  · next hroom =>
    cases ht
    refine ⟨⟨?_, ?_, ?_, ?_, ?_, ?_, ?_, ?_⟩, rfl, hfull, ?_⟩
    · rw [List.length_append, h.length]
      rfl
    · rw [List.length_set]
      exact hroom
    · rw [List.take_succ_eq_append_getElem (by rwa [List.length_set]), List.take_set_of_le (Nat.le_refl _), h.infos, List.getElem_set_self,
        List.map_append]
      rfl
    · exact packed_append.mpr ⟨_, h.packed, rfl, rfl⟩
    · rw [List.forall_mem_append]
      exact ⟨h.words, List.forall_mem_singleton.mpr hwords⟩
    · rw [List.forall_mem_append]
      exact ⟨h.counts, List.forall_mem_singleton.mpr (Nat.zero_le _)⟩
    · intro ty'
      by_cases hty' : ty' = ty
      · subst hty'
        dsimp only
        rw [update_self]
        refine .filling ⟨ty', t.auxNext, 0⟩ ?_ rfl hper (by simp) rfl fun k r' hk hr' hne => ?_
        · dsimp only
          rw [← h.length, List.getElem?_concat_length]
        · dsimp only at hne ⊢
          rw [← h.length] at hne ⊢
          have hlt : k < (rows ++ [(⟨ty', t.auxNext, 0⟩ : Row)]).length := (List.getElem?_eq_some_iff.mp hk).1
          rw [List.length_append, List.length_singleton] at hlt
          rw [List.getElem?_append_left (by omega)] at hk
          exact ⟨by omega, hfull r' (List.mem_of_getElem? hk) hr'⟩
      · dsimp only
        rw [update_of_ne hty']
        cases h.cursors ty' with
        | full heq hfull' =>
          refine .full heq ?_
          rw [List.forall_mem_append, List.forall_mem_singleton]
          exact ⟨hfull', fun heq => absurd heq.symm hty'⟩
        | filling r hrow hty hcount hstart hstop hothers =>
          have hlt : (t.cursors ty').row < rows.length := (List.getElem?_eq_some_iff.mp hrow).1
          refine .filling r (by rwa [List.getElem?_append_left hlt]) hty hcount hstart hstop fun k r' hk hr' hne => ?_
          have hk' : k < (rows ++ [(⟨ty, t.auxNext, 0⟩ : Row)]).length := (List.getElem?_eq_some_iff.mp hk).1
          rw [List.length_append, List.length_singleton] at hk'
          rcases Nat.lt_or_ge k rows.length with hold | hnew
          · rw [List.getElem?_append_left hold] at hk
            exact hothers k r' hk hr' hne
          · obtain rfl : k = rows.length := by omega
            rw [List.getElem?_concat_length] at hk
            cases hk
            exact absurd hr'.symm hty'
    · intro ty'
      rw [h.slots ty', List.filter_append, List.flatMap_append]
      by_cases hty' : ty = ty'
      · simp [hty', Row.slots]
      · simp [hty']
    · dsimp only
      rw [update_self]
      dsimp only
      omega
  · cases ht

/-- A slot that is free and the slots that were returned lie apart. -/
theorem apart {k : ℕ} {r : Row} (hrow : rows[k]? = some r) (hcount : r.count < r.ty.countPerRow) (he : e ∈ entries) :
    e.2 + e.1.size ≤ r.base + r.count * r.ty.size ∨ r.base + r.count * r.ty.size + r.ty.size ≤ e.2 := by
  obtain ⟨r', hr', hty, i, hi, heq⟩ := h.exists_slot he
  have hslot := Row.slot_le (h.counts r' hr') hi
  have hfree := Row.slot_le (r := r.more) (by exact hcount) (Nat.lt_succ_self r.count)
  obtain ⟨before, after, rfl, -, -⟩ := exists_append hrow
  have hpairwise := h.packed.within.2.2
  rw [pairwise_append, pairwise_cons] at hpairwise
  rw [hty] at hslot heq
  rcases mem_append.mp hr' with hbefore | hr'
  · have hle := hpairwise.2.2 r' hbefore r mem_cons_self
    rw [hty] at hle
    omega
  · rcases mem_cons.mp hr' with rfl | hafter
    · have hmul : (i + 1) * r'.ty.size ≤ r'.count * r'.ty.size := Nat.mul_le_mul_right _ hi
      rw [Nat.add_mul, Nat.one_mul] at hmul
      rw [← hty] at heq ⊢
      omega
    · have hle := hpairwise.2.1.1 r' hafter
      change r.base + r.count * r.ty.size + r.ty.size ≤ r.base + r.ty.rowSize at hfree
      omega

theorem fillRow {wit : Witness} {idx : ℕ} (hcursor : (t.cursors wit.ty).start ≠ (t.cursors wit.ty).stop)
    (ht : t.fillRow wit = some (t', idx)) : ∃ k r, rows[k]? = some r ∧ r.ty = wit.ty ∧ r.count < wit.ty.countPerRow ∧
      idx = r.base + r.count * wit.ty.size ∧ Layout t' (rows.set k r.more) (entries ++ [(wit.ty, idx)]) ∧
      t.aux.write idx wit.words = some t'.aux := by
  cases h.cursors wit.ty with
  | full heq _ => exact absurd heq hcursor
  | filling r hrow hty hcount hstart hstop hothers =>
    have hlt : (t.cursors wit.ty).row < rows.length := (List.getElem?_eq_some_iff.mp hrow).1
    have hinfo : t.rows[(t.cursors wit.ty).row]? = some r.info := by
      have htake := congrArg (fun l => l[(t.cursors wit.ty).row]?) h.infos
      rw [List.getElem?_map, hrow, List.getElem?_take_of_lt (h.length ▸ hlt)] at htake
      exact htake
    unfold Trace.fillRow at ht
    dsimp only at ht
    rw [hinfo] at ht
    cases hwrite : t.aux.write (t.cursors wit.ty).start wit.words with
    | none =>
      rw [hwrite] at ht
      cases ht
    | some aux =>
      rw [hwrite] at ht
      cases ht
      refine ⟨_, r, hrow, hty, hcount, hstart, ⟨?_, ?_, ?_, ?_, forall_mem_set h.words (h.words r (mem_of_getElem? hrow)), ?_, ?_, ?_⟩, hwrite⟩
      · rw [List.length_set, h.length]
      · rw [List.length_set]
        exact h.room
      · have hmore : ({ r.info with blockCount := r.info.blockCount + 1 } : RowInfo) = r.more.info := by
          simp only [Row.info, Row.more, RowInfo.mk.injEq, true_and, and_true]
          exact (BitVec.ofNat_add _ _).symm
        rw [List.take_set, h.infos, hmore, List.map_set]
      · obtain ⟨before, after, hrows, -, hset⟩ := exists_append hrow
        have hpacked := h.packed
        rw [hrows, packed_append] at hpacked
        rw [hset, packed_append]
        exact hpacked
      · exact forall_mem_set h.counts (hty ▸ hcount)
      · intro ty
        dsimp only
        by_cases hty' : ty = wit.ty
        · rw [hty', update_self]
          exact .more hrow hty hcount hstart hstop hothers
        · rw [update_of_ne hty']
          exact (h.cursors ty).set_other hrow fun heq => hty' (heq.symm.trans hty)
      · intro ty
        rw [slots_set hrow (hty ▸ hothers), ← h.slots ty, List.filter_append, List.map_append, hty, hstart]
        by_cases hty' : wit.ty = ty
        · simp [hty']
        · simp [hty']

end Layout

/-! ### What is kept -/

def Buffer.value (b : Buffer) (e : BlockType × ℕ) : Witness := ⟨e.1, b.slice e.2 e.1.size, Buffer.length_slice _ _ _⟩

/-- Two blocks of the buffer do not overlap. -/
def Apart (e e' : BlockType × ℕ) : Prop := e.2 + e.1.size ≤ e'.2 ∨ e'.2 + e'.1.size ≤ e.2

theorem Apart.symm {e e' : BlockType × ℕ} (h : Apart e e') : Apart e' e := Or.symm h

structure Kept (t : Trace) (rows : List Row) (entries : List (BlockType × ℕ)) (ws : List Witness) : Prop where
  layout : Layout t rows entries
  nonempty : ∀ r ∈ rows, 0 < r.count
  fits : ∀ e ∈ entries, e.2 + e.1.size ≤ t.aux.length
  apart : entries.Pairwise Apart
  values : ws = entries.map t.aux.value

namespace Kept

variable {t t' : Trace} {rows : List Row} {entries : List (BlockType × ℕ)} {ws : List Witness}
variable {b b' : Buffer} {e : BlockType × ℕ} {words : List U32} {wit : Witness} {idx : ℕ} {entries' : List (BlockType × ℕ)}

theorem value_write {e' : BlockType × ℕ} (hwrite : b.write e.2 words = some b')
    (hlength : words.length = e.1.size) (hapart : Apart e' e) : b'.value e' = b.value e' := by
  apply Witness.ext
  · rfl
  · refine Buffer.slice_write_of_apart hwrite ?_
    rw [hlength]
    exact hapart

theorem value_write_self (hwrite : b.write e.2 words = some b')
    (hlength : words.length = e.1.size) : b'.value e = ⟨e.1, words, hlength⟩ := by
  apply Witness.ext
  · rfl
  · change b'.slice e.2 e.1.size = words
    rw [← hlength]
    exact Buffer.slice_write hwrite

section

variable (h : Kept t rows entries ws)

include h

/-- The last part of adding a block, in a layout in which at most its row is without blocks. -/
theorem fill {t₁ : Trace} {rows₁ : List Row} (hlayout : Layout t₁ rows₁ entries) (haux : t₁.aux = t.aux)
    (hcursor : (t₁.cursors wit.ty).start ≠ (t₁.cursors wit.ty).stop)
    (hnonempty : ∀ (k : ℕ) (r : Row), rows₁[k]? = some r → r.count = 0 → ∀ (k' : ℕ) (r' : Row), rows₁[k']? = some r' → r'.ty = wit.ty →
      r'.count < wit.ty.countPerRow → k' = k) (ht : t₁.fillRow wit = some (t', idx)) :
    ∃ rows', Kept t' rows' (entries ++ [(wit.ty, idx)]) (ws ++ [wit]) := by
  obtain ⟨k, r, hrow, hty, hcount, hidx, hlayout', hwrite⟩ := hlayout.fillRow hcursor ht
  rw [haux] at hwrite
  obtain ⟨hlength, hle⟩ := Buffer.length_write hwrite
  rw [wit.length_words] at hle
  have hapart (e : BlockType × ℕ) (he : e ∈ entries) : Apart e (wit.ty, idx) := by
    have := hlayout.apart hrow (hty ▸ hcount) he
    rw [hty] at this
    rw [hidx]
    exact this
  refine ⟨rows₁.set k r.more, hlayout', ?_, ?_, ?_, ?_⟩
  · intro r' hr'
    obtain ⟨k', hk'⟩ := List.mem_iff_getElem?.mp hr'
    by_cases hne : k = k'
    · rw [hne, List.getElem?_set_self (hne ▸ (List.getElem?_eq_some_iff.mp hrow).1)] at hk'
      cases hk'
      exact Nat.succ_pos _
    · rw [List.getElem?_set_ne hne] at hk'
      by_contra hzero
      exact hne (hnonempty k' r' hk' (by omega) k r hrow hty hcount)
  · intro e he
    rw [hlength]
    rcases List.mem_append.mp he with he | he
    · exact h.fits e he
    · rw [List.mem_singleton.mp he]
      exact hle
  · rw [List.pairwise_append]
    refine ⟨h.apart, List.pairwise_singleton _ _, fun e he e' he' => ?_⟩
    rw [List.mem_singleton.mp he']
    exact hapart e he
  · rw [List.map_append, List.map_singleton, value_write_self hwrite wit.length_words, h.values]
    congr 1
    exact List.map_congr_left fun e he => (value_write (e := (wit.ty, idx)) hwrite wit.length_words (hapart e he)).symm

theorem add (ht : t.addBlock wit = some (t', idx)) :
    ∃ rows', Kept t' rows' (entries ++ [(wit.ty, idx)]) (ws ++ [wit]) := by
  unfold addBlock at ht
  split at ht
  · cases ht
  next hwords =>
  rw [not_not] at hwords
  split at ht
  · next hcursor =>
    obtain ⟨t₁, hopen, hfill⟩ := Option.bind_eq_some_iff.mp ht
    obtain ⟨hlayout, haux, hfull, hcursor'⟩ := h.layout.openRow hwords hcursor hopen
    refine h.fill hlayout haux hcursor' (fun k r hrow hzero k' r' hrow' hty' hcount' => ?_) hfill
    have hlast {k : ℕ} {r : Row} (hrow : (rows ++ [(⟨wit.ty, t.auxNext, 0⟩ : Row)])[k]? = some r) (hr : r ∉ rows) : k = rows.length := by
      have hk := (List.getElem?_eq_some_iff.mp hrow).1
      rw [List.length_append, List.length_singleton] at hk
      by_contra hne
      rw [List.getElem?_append_left (by omega)] at hrow
      exact hr (List.mem_of_getElem? hrow)
    rw [hlast hrow fun hr => by have := h.nonempty r hr; omega, hlast hrow' fun hr' => by have := hfull r' hr' hty'; omega]
  · next hcursor =>
    refine h.fill h.layout rfl hcursor (fun k r hrow hzero => ?_) ht
    have := h.nonempty r (List.mem_of_getElem? hrow)
    omega

theorem write {n : ℕ} (he : entries[n]? = some e)
    (hlength : words.length = e.1.size) (ht : t.setBlock e.2 words = some t') :
    Kept t' rows entries (Op.value (.write n words) ws) := by
  obtain ⟨aux, hwrite, rfl⟩ := Option.map_eq_some_iff.mp ht
  refine ⟨⟨h.layout.length, h.layout.room, h.layout.infos, h.layout.packed, h.layout.words, h.layout.counts, h.layout.cursors, h.layout.slots⟩,
    h.nonempty, fun e' he' => ?_, h.apart, ?_⟩
  · rw [(Buffer.length_write hwrite).1]
    exact h.fits e' he'
  · rw [Op.value, h.values]
    apply List.ext_getElem?
    intro k
    rw [List.getElem?_modify, List.getElem?_map, List.getElem?_map]
    by_cases hk : n = k
    · subst hk
      rw [he, Option.map_some, Option.map_some, Option.map_eq_map, Option.map_some, value_write_self hwrite hlength]
      refine congrArg some ((if_pos rfl).trans ?_)
      exact dif_pos (show words.length = (t.aux.value e).ty.size from hlength)
    · cases hentry : entries[k]? with
      | none => rfl
      | some e' =>
        rw [Option.map_some, Option.map_some, Option.map_eq_map, Option.map_some]
        refine congrArg some ((if_neg hk).trans (value_write hwrite hlength ?_).symm)
        obtain ⟨hn, rfl⟩ := List.getElem?_eq_some_iff.mp he
        obtain ⟨hk', rfl⟩ := List.getElem?_eq_some_iff.mp hentry
        rcases Nat.lt_or_gt_of_ne hk with hlt | hlt
        · exact (List.pairwise_iff_getElem.mp h.apart n k hn hk' hlt).symm
        · exact List.pairwise_iff_getElem.mp h.apart k n hk' hn hlt

theorem apply {op : Op} (hop : op.apply (t, entries) = some (t', entries')) :
    ∃ rows', Kept t' rows' entries' (op.value ws) := by
  cases op with
  | add wit =>
    obtain ⟨⟨t₁, idx⟩, hadd, heq⟩ := Option.map_eq_some_iff.mp hop
    cases heq
    exact h.add hadd
  | write n words =>
    obtain ⟨e, he, hop⟩ := Option.bind_eq_some_iff.mp hop
    split at hop
    · next hlength =>
      obtain ⟨t₁, hset, heq⟩ := Option.map_eq_some_iff.mp hop
      cases heq
      exact ⟨rows, h.write he hlength hset⟩
    · cases hop

end

theorem run {ops : List Op} (h : Kept t rows entries ws)
    (hrun : run ops (t, entries) = some (t', entries')) : ∃ rows', Kept t' rows' entries' (Preflight.values ops ws) := by
  induction ops generalizing t rows entries ws with
  | nil =>
    cases hrun
    exact ⟨rows, h⟩
  | cons op ops ih =>
    rw [Preflight.run, foldlM_cons] at hrun
    obtain ⟨⟨t₁, entries₁⟩, hop, hrest⟩ := Option.bind_eq_some_iff.mp hrun
    obtain ⟨rows₁, h1⟩ := h.apply hop
    exact ih h1 hrest

theorem new {infos : List RowInfo} {aux : Buffer} (ht : new infos aux = some t) :
    ∃ rows, Kept t rows [(.globals, t.globals)] [globalsWitness] := by
  obtain ⟨⟨t₁, idx⟩, hadd, rfl⟩ := Option.map_eq_some_iff.mp ht
  have hnone : Kept ⟨infos, 0, aux, 0, 0, fun _ => ⟨0, 0, 0⟩⟩ [] [] [] := by
    refine ⟨⟨rfl, Nat.zero_le _, rfl, rfl, ?_, ?_, fun ty => .full rfl ?_, fun ty => rfl⟩, ?_, ?_, Pairwise.nil, rfl⟩
    all_goals exact fun _ h => absurd h not_mem_nil
  obtain ⟨rows, h⟩ := hnone.add hadd
  exact ⟨rows, ⟨h.layout.length, h.layout.room, h.layout.infos, h.layout.packed, h.layout.words, h.layout.counts, h.layout.cursors,
    h.layout.slots⟩, h.nonempty, h.fits, h.apart, h.values⟩

end Kept

/-! ### The count of the rows -/

/-- The rows that blocks of one type fill. -/
def rowsFor (n perRow : ℕ) : ℕ := (n + perRow - 1) / perRow

theorem rowsFor_full (h : 0 < perRow) : rowsFor (k * perRow) perRow = k := by
  rw [rowsFor, Nat.add_sub_assoc h, Nat.mul_comm, Nat.mul_add_div h, Nat.div_eq_of_lt (by omega), Nat.add_zero]

theorem rowsFor_part {c : ℕ} (hc : 0 < c) (hlt : c < perRow) : rowsFor (k * perRow + c) perRow = k + 1 := by
  have hsum : k * perRow + c + perRow - 1 = perRow * (k + 1) + (c - 1) := by
    rw [Nat.mul_add, Nat.mul_one, Nat.mul_comm]
    omega
  rw [rowsFor, hsum, Nat.mul_add_div (by omega), Nat.div_eq_of_lt (by omega), Nat.add_zero]

theorem length_eq_sum (rows : List Row) : rows.length = (all.map fun ty => (rows.filter fun r => r.ty = ty).length).sum := by
  induction rows with
  | nil => rfl
  | cons r rows ih =>
    have hone : (all.map fun ty => if r.ty = ty then 1 else 0).sum = 1 := by cases r.ty <;> rfl
    have hsplit (ty : BlockType) : ((r :: rows).filter fun r => r.ty = ty).length =
        (if r.ty = ty then 1 else 0) + (rows.filter fun r => r.ty = ty).length := by
      by_cases hty : r.ty = ty
      · simp [hty, Nat.add_comm]
      · simp [hty]
    simp only [hsplit]
    rw [length_cons, ih, sum_map_add, hone, Nat.add_comm]

namespace Kept

variable {t : Trace} {rows : List Row} {entries : List (BlockType × ℕ)} {ws : List Witness}

theorem filter_values (h : Kept t rows entries ws) (ty : BlockType) :
    (ws.filter fun w => w.ty = ty) = (entries.filter fun e => e.1 = ty).map t.aux.value := by
  rw [h.values, filter_map]
  rfl

theorem count_eq (h : Kept t rows entries ws) (ty : BlockType) :
    (ws.filter fun w => w.ty = ty).length = ((rows.filter fun r => r.ty = ty).map Row.count).sum := by
  have hslots := congrArg length (h.layout.slots ty)
  rw [length_map, length_flatMap] at hslots
  rw [h.filter_values, length_map, hslots]
  congr 1
  refine map_congr_left fun r _ => ?_
  rw [Row.slots, length_map, length_range]

theorem sum_full {l : List Row} {n : ℕ} (hl : ∀ r ∈ l, r.count = n) : (l.map Row.count).sum = l.length * n := by
  rw [map_congr_left hl, map_const', sum_replicate, smul_eq_mul]

theorem rows_of_type (h : Kept t rows entries ws) (ty : BlockType) :
    (rows.filter fun r => r.ty = ty).length = rowsFor (ws.filter fun w => w.ty = ty).length ty.countPerRow := by
  rw [h.count_eq]
  by_cases hwords : ty.bytes % 4 = 0
  · have hper := (pos_of_words hwords).2.1
    cases h.layout.cursors ty with
    | full _ hfull =>
      rw [sum_full (n := ty.countPerRow) fun r hr => ?_, rowsFor_full hper]
      rw [mem_filter, decide_eq_true_eq] at hr
      exact hfull r hr.1 hr.2
    | filling r hrow hty hcount hstart hstop hothers =>
      obtain ⟨before, after, hrows, hlength, -⟩ := exists_append hrow
      have hpos := h.nonempty r (mem_of_getElem? hrow)
      have hafter := filter_after hrows fun k r' hk hr' hne => hlength ▸ hothers k r' hk hr' (hlength ▸ hne)
      have hbefore : ∀ r' ∈ before.filter (fun r' => r'.ty = ty), r'.count = ty.countPerRow := by
        intro r' hr'
        rw [mem_filter, decide_eq_true_eq] at hr'
        obtain ⟨j, hj, rfl⟩ := mem_iff_getElem.mp hr'.1
        have hk : rows[j]? = some (before[j]) := by rw [hrows, getElem?_append_left hj, getElem?_eq_getElem hj]
        exact (hothers _ _ hk hr'.2 (by omega)).2
      have hold : ((r :: after).filter fun r' => r'.ty = ty) = [r] := by simp [hty, hafter]
      rw [hrows, filter_append, hold, map_append, sum_append, sum_full hbefore, length_append, map_singleton,
        sum_singleton, rowsFor_part hpos hcount, length_singleton]
  · have hnone : (rows.filter fun r => r.ty = ty) = [] := by
      rw [filter_eq_nil_iff]
      intro r hr heq
      rw [decide_eq_true_eq] at heq
      exact hwords (heq ▸ h.layout.words r hr)
    have hempty : ty = .empty := by
      cases ty with
      | empty => rfl
      | _ => exact absurd (by decide) hwords
    rw [hnone, hempty]
    rfl

theorem getRowCount_eq (h : Kept t rows entries ws) :
    t.getRowCount = (all.map fun ty => rowsFor (ws.filter fun w => w.ty = ty).length ty.countPerRow).sum := by
  rw [getRowCount, ← h.layout.length, length_eq_sum]
  congr 1
  exact map_congr_left fun ty _ => h.rows_of_type ty

/-! ### Reading back -/

variable {r : Row}

theorem slot_fits (h : Kept t rows entries ws) (hr : r ∈ rows) {idx : ℕ} (hidx : idx ∈ r.slots) :
    idx + r.ty.size ≤ t.aux.length := by
  have hmem : idx ∈ (entries.filter fun e => e.1 = r.ty).map fun e => e.2 := by
    rw [h.layout.slots]
    exact mem_flatMap.mpr ⟨r, mem_filter.mpr ⟨hr, decide_eq_true rfl⟩, hidx⟩
  obtain ⟨e, he, rfl⟩ := mem_map.mp hmem
  rw [mem_filter, decide_eq_true_eq] at he
  rw [← he.2]
  exact h.fits e he.1

/-- In a buffer of at most `2 ^ 32` words no offset is cut off, and a row gives its blocks. -/
theorem decodeRow_info (h : Kept t rows entries ws) (hlength : t.aux.length ≤ 2 ^ 32) (hr : r ∈ rows) :
    decodeRow t.aux r.info = some (r.slots.map fun idx => t.aux.value (r.ty, idx)) := by
  have hcount := h.layout.counts r hr
  have hper := r.ty.countPerRow_le
  have hsize := (pos_of_words (h.layout.words r hr)).1
  have hfirst : r.base ∈ r.slots := mem_map.mpr ⟨0, mem_range.mpr (h.nonempty r hr), by rw [Nat.zero_mul, Nat.add_zero]⟩
  have hbase := h.slot_fits hr hfirst
  have hoffset : r.info.auxOffset.toNat = r.base := by
    rw [Row.info, BitVec.toNat_ofNat, Nat.mod_eq_of_lt (by omega)]
  have hblocks : r.info.blockCount.toNat = r.count := by
    rw [Row.info, BitVec.toNat_ofNat, Nat.mod_eq_of_lt (by omega)]
  have hty : ofNum? r.info.rowType.toNat = some r.ty := by
    rw [Row.info, toNat_u8, ofNum?_num]
  rw [decodeRow, hty, hoffset, hblocks, Option.bind_eq_bind, Option.bind_some, Row.slots, map_map]
  refine mapM_eq_map fun i hi => ?_
  rw [mem_range] at hi
  exact if_pos (h.slot_fits hr (mem_map.mpr ⟨i, mem_range.mpr hi, rfl⟩))

/-- Reading back the sorted rows gives the blocks by their types, those of a type in the order in which they were added. -/
theorem decode_finalize (h : Kept t rows entries ws) (hlength : t.aux.length ≤ 2 ^ 32) :
    decodeTrace t.finalize.rows t.finalize.aux = some (all.flatMap fun ty => ws.filter fun w => w.ty = ty) := by
  generalize hlist : t.rows.take t.rowNext ++ replicate (t.rows.length - t.rowNext) emptyRow = infos
  have hrow (info : RowInfo) (hinfo : info ∈ infos) : (∃ r ∈ rows, info = r.info) ∨ info = emptyRow := by
    rw [← hlist, h.layout.infos] at hinfo
    rcases mem_append.mp hinfo with hinfo | hinfo
    · obtain ⟨r, hr, rfl⟩ := mem_map.mp hinfo
      exact .inl ⟨r, hr, rfl⟩
    · exact .inr (eq_of_mem_replicate hinfo)
  have hkey (info : RowInfo) (hinfo : info ∈ infos) : info.rowType.toNat ∈ range 43 := by
    rw [mem_range]
    rcases hrow info hinfo with ⟨r, -, rfl⟩ | rfl
    · exact lt_of_eq_of_lt r.ty.toNat_u8 r.ty.num_lt
    · decide
  have hsorted : t.finalize.rows = all.flatMap fun ty => infos.filter fun info => info.rowType.toNat = ty.num := by
    rw [finalize, hlist, insertionSort_eq_groups pairwise_lt_range hkey, ← map_num_all, flatMap_map]
  have hdecode (info : RowInfo) (hinfo : info ∈ t.finalize.rows) : decodeRow t.aux info = some ((decodeRow t.aux info).getD []) := by
    rw [hsorted] at hinfo
    obtain ⟨ty, -, hinfo⟩ := mem_flatMap.mp hinfo
    rcases hrow info (mem_filter.mp hinfo).1 with ⟨r, hr, rfl⟩ | rfl
    · rw [h.decodeRow_info hlength hr, Option.getD_some]
    · rfl
  have hgroup (ty : BlockType) : ((infos.filter fun info => info.rowType.toNat = ty.num).map fun info => (decodeRow t.aux info).getD []).flatten =
      ws.filter fun w => w.ty = ty := by
    rw [← hlist, h.layout.infos, filter_append, map_append, flatten_append]
    have hempty : (((replicate (t.rows.length - t.rowNext) emptyRow).filter fun info => info.rowType.toNat = ty.num).map
        fun info => (decodeRow t.aux info).getD []).flatten = [] := by
      rw [flatten_eq_nil_iff]
      intro l hl
      obtain ⟨info, hinfo, rfl⟩ := mem_map.mp hl
      rw [eq_of_mem_replicate (mem_filter.mp hinfo).1]
      rfl
    have hfilter : ((rows.map Row.info).filter fun info => info.rowType.toNat = ty.num) = (rows.filter fun r => r.ty = ty).map Row.info := by
      rw [filter_map]
      congr 1
      refine filter_congr fun r _ => ?_
      rw [comp_apply, Row.info, toNat_u8]
      exact decide_eq_decide.mpr ⟨num_injective, congrArg _⟩
    rw [hempty, append_nil, hfilter, h.filter_values, map_map]
    have hvalues : (entries.filter fun e => e.1 = ty).map t.aux.value =
        ((entries.filter fun e => e.1 = ty).map fun e => e.2).map fun idx => t.aux.value (ty, idx) := by
      rw [map_map]
      refine map_congr_left fun e he => ?_
      rw [mem_filter, decide_eq_true_eq] at he
      rw [comp_apply, ← he.2]
    rw [hvalues, h.layout.slots, map_flatMap, flatMap_def]
    congr 1
    refine map_congr_left fun r hr => ?_
    rw [mem_filter, decide_eq_true_eq] at hr
    rw [comp_apply, h.decodeRow_info hlength hr.1, Option.getD_some, hr.2]
  rw [decodeTrace]
  change ((t.finalize.rows.mapM (decodeRow t.aux)).map flatten) = _
  rw [mapM_eq_map hdecode, Option.map_some, hsorted, ← flatMap_def, flatMap_assoc]
  refine congrArg some (flatMap_congr fun ty _ => ?_)
  rw [flatMap_def]
  exact hgroup ty

end Kept

/-! ### The length of the buffer -/

section Length

variable {t t' : Trace}

theorem Trace.aux_openRow {ty : BlockType} (h : t.openRow ty = some t') : t'.aux = t.aux := by
  unfold openRow at h
  split at h
  · cases h
    rfl
  · cases h

variable {wit : Witness} {idx : ℕ} {s s' : Used}

theorem Trace.length_fillRow (h : t.fillRow wit = some (t', idx)) : t'.aux.length = t.aux.length := by
  obtain ⟨row, -, h⟩ := Option.bind_eq_some_iff.mp h
  obtain ⟨aux, hwrite, h⟩ := Option.bind_eq_some_iff.mp h
  cases h
  exact (Buffer.length_write hwrite).1

theorem Trace.length_addBlock (h : t.addBlock wit = some (t', idx)) : t'.aux.length = t.aux.length := by
  unfold addBlock at h
  split at h
  · cases h
  split at h
  · obtain ⟨t₁, hopen, hfill⟩ := Option.bind_eq_some_iff.mp h
    rw [length_fillRow hfill, aux_openRow hopen]
  · exact length_fillRow h

theorem Op.length_apply {op : Op} (h : op.apply s = some s') : s'.1.aux.length = s.1.aux.length := by
  cases op with
  | add wit =>
    obtain ⟨⟨t₁, idx⟩, hadd, rfl⟩ := Option.map_eq_some_iff.mp h
    exact length_addBlock hadd
  | write n words =>
    obtain ⟨e, -, h⟩ := Option.bind_eq_some_iff.mp h
    split at h
    · obtain ⟨t₁, hset, rfl⟩ := Option.map_eq_some_iff.mp h
      obtain ⟨aux, hwrite, rfl⟩ := Option.map_eq_some_iff.mp hset
      exact (Buffer.length_write hwrite).1
    · cases h

theorem length_run {ops : List Op} (h : run ops s = some s') : s'.1.aux.length = s.1.aux.length := by
  induction ops generalizing s with
  | nil =>
    cases h
    rfl
  | cons op ops ih =>
    rw [run, foldlM_cons] at h
    obtain ⟨s₁, hop, hrest⟩ := Option.bind_eq_some_iff.mp h
    rw [ih hrest, Op.length_apply hop]

end Length

/-! ### Nothing is lost -/

/-- A trace from which all blocks can be had, by their indices and from its rows. -/
structure NothingLost (t : Trace) (entries : List (BlockType × ℕ)) (ws : List Witness) : Prop where
  types : (entries.map fun e => e.1) = ws.map Witness.ty
  blocks : ∀ (n : ℕ) (e : BlockType × ℕ) (w : Witness), entries[n]? = some e → ws[n]? = some w → t.getBlock e.1 e.2 = some w.words
  apart : entries.Pairwise Apart
  rowCount : t.getRowCount = (BlockType.all.map fun ty => rowsFor (ws.filter fun w => w.ty = ty).length ty.countPerRow).sum
  decoded : decodeTrace t.finalize.rows t.finalize.aux = some (BlockType.all.flatMap fun ty => ws.filter fun w => w.ty = ty)

theorem Kept.nothingLost {t : Trace} {entries : List (BlockType × ℕ)} (h : Kept t rows entries ws)
    (hlength : t.aux.length ≤ 2 ^ 32) : NothingLost t entries ws := by
  refine ⟨?_, fun n e w he hw => ?_, h.apart, h.getRowCount_eq, h.decode_finalize hlength⟩
  · rw [h.values, map_map]
    rfl
  · rw [h.values, getElem?_map, he] at hw
    cases hw
    exact Buffer.read_eq (h.fits e (mem_of_getElem? he))

/-- Whatever blocks are added and written to, in whatever order: an index reads the value that was written to it last, blocks do not
overlap, a row is used only when the blocks need it, and reading the sorted rows back gives all blocks by their types. -/
theorem add_and_write_lose_nothing {infos : List RowInfo} {aux : Buffer} (haux : aux.length ≤ 2 ^ 32) {t t' : Trace}
    (ht : Trace.new infos aux = some t) {ops : List Op} {entries : List (BlockType × ℕ)}
    (hrun : run ops (t, [(.globals, t.globals)]) = some (t', entries)) : NothingLost t' entries (values ops [Trace.globalsWitness]) := by
  obtain ⟨rows, hnew⟩ := Kept.new ht
  obtain ⟨rows', hkept⟩ := hnew.run hrun
  refine hkept.nothingLost ?_
  obtain ⟨⟨t₁, idx⟩, hadd, rfl⟩ := Option.map_eq_some_iff.mp ht
  rw [length_run hrun]
  exact (Trace.length_addBlock hadd).trans_le haux

theorem length_tableWords (x y : U32) : [x, y].length = makeTable.size := by
  have hsize : makeTable.size = 2 := by decide
  rw [hsize]
  rfl

def tableWitness (x y : U32) : Witness := ⟨.makeTable, [x, y], length_tableWords x y⟩

def blankRow : RowInfo := ⟨0, 0, 0⟩

def blankAux : Buffer := ⟨100, fun _ => 0⟩

def tableOps : List Op := [.add (tableWitness 1 2), .write 1 [5, 6], .add (tableWitness 3 4)]

theorem add_and_write_lose_nothing_table : ∃ t t' entries, Trace.new [blankRow, blankRow, blankRow] blankAux = some t ∧
    run tableOps (t, [(.globals, t.globals)]) = some (t', entries) ∧ (entries.map fun e => e.2) = [0, 27, 29] ∧
    NothingLost t' entries (values tableOps [Trace.globalsWitness]) := by
  have hsome : ((Trace.new [blankRow, blankRow, blankRow] blankAux).bind fun t =>
      (run tableOps (t, [(.globals, t.globals)])).map fun s => s.2.map fun e => e.2) = some [0, 27, 29] := by decide
  obtain ⟨t, ht, hsome⟩ := Option.bind_eq_some_iff.mp hsome
  obtain ⟨⟨t', entries⟩, hrun, hentries⟩ := Option.map_eq_some_iff.mp hsome
  exact ⟨t, t', entries, ht, hrun, hentries, add_and_write_lose_nothing (show blankAux.length ≤ 2 ^ 32 by decide) ht hrun⟩

/-! ### A buffer of more words -/

/-- A trace of `n` globals blocks that are zero, with room for `R`. -/
structure Zeros (R n : ℕ) (t : Trace) : Prop where
  rows : t.rows.length = R
  rowNext : t.rowNext = n
  auxNext : t.auxNext = n * 27
  length : t.aux.length = R * 27
  closed : (t.cursors .globals).start = (t.cursors .globals).stop
  get (k : ℕ) : t.aux.get k = 0

namespace Zeros

variable {R n : ℕ} {t : Trace}

theorem add (h : Zeros R n t) (hn : n < R) (wit : Witness) (hty : wit.ty = .globals) : ∃ t', t.addBlock wit = some (t', n * 27) ∧
    t'.rows.length = R ∧ t'.rowNext = n + 1 ∧ t'.auxNext = (n + 1) * 27 ∧ t'.aux.length = R * 27 ∧
    (t'.cursors .globals).start = (t'.cursors .globals).stop ∧
    ∀ k, t'.aux.get k = if n * 27 ≤ k ∧ k < n * 27 + 27 then wit.words.getD (k - n * 27) 0 else 0 := by
  obtain ⟨ty, words, hwords⟩ := wit
  obtain rfl : ty = .globals := hty
  have hlen : words.length = 27 := hwords
  have hopen : t.openRow .globals = some { t with
      rows := t.rows.set t.rowNext ⟨globals.u8, 0, .ofNat 32 t.auxNext⟩
      rowNext := t.rowNext + 1
      auxNext := t.auxNext + globals.rowSize
      cursors := update t.cursors .globals ⟨t.rowNext, t.auxNext, t.auxNext + globals.rowSize⟩ } :=
    if_pos (by rw [h.rowNext, h.rows]; exact hn)
  have hwrite : t.aux.write (n * 27) words = some ⟨R * 27, fun k => if n * 27 ≤ k ∧ k < n * 27 + 27 then words.getD (k - n * 27) 0 else 0⟩ := by
    unfold Buffer.write
    rw [hlen, h.length, if_pos (by omega)]
    simp only [h.get]
  have hrow : (t.rows.set n ⟨globals.u8, 0, .ofNat 32 (n * 27)⟩)[n]? = some ⟨globals.u8, 0, .ofNat 32 (n * 27)⟩ :=
    getElem?_set_self (by rw [h.rows]; exact hn)
  have hfill : t.addBlock ⟨.globals, words, hwords⟩ = some ({ t with
      rows := (t.rows.set n ⟨globals.u8, 0, .ofNat 32 (n * 27)⟩).set n ⟨globals.u8, 0 + 1, .ofNat 32 (n * 27)⟩
      rowNext := n + 1
      aux := ⟨R * 27, fun k => if n * 27 ≤ k ∧ k < n * 27 + 27 then words.getD (k - n * 27) 0 else 0⟩
      auxNext := n * 27 + 27
      cursors := update (update t.cursors .globals ⟨n, n * 27, n * 27 + 27⟩) .globals ⟨n, n * 27 + 27, n * 27 + 27⟩ },
      n * 27) := by
    unfold addBlock
    rw [if_neg (show ¬globals.bytes % 4 ≠ 0 by decide), if_pos h.closed, hopen, Option.bind_some]
    unfold fillRow
    simp only [update_self, h.auxNext, h.rowNext, hwrite, hrow]
    rfl
  refine ⟨_, hfill, ?_, rfl, ?_, rfl, ?_, fun k => rfl⟩
  · rw [length_set, length_set, h.rows]
  · dsimp only
    rw [Nat.add_mul, Nat.one_mul]
  · dsimp only
    rw [update_self]

theorem add_zeros (h : Zeros R n t) (hn : n < R) : ∃ t', t.addBlock globalsWitness = some (t', n * 27) ∧ Zeros R (n + 1) t' := by
  obtain ⟨t', hadd, hrows, hrowNext, hauxNext, hlength, hclosed, hget⟩ := h.add hn globalsWitness rfl
  refine ⟨t', hadd, hrows, hrowNext, hauxNext, hlength, hclosed, fun k => ?_⟩
  rw [hget]
  split
  · next hk => exact getD_replicate _ (by omega)
  · rfl

theorem run_zeros (m : ℕ) (h : Zeros R n t) (hm : n + m ≤ R) (entries : List (BlockType × ℕ)) :
    ∃ t' entries', run (replicate m (.add globalsWitness)) (t, entries) = some (t', entries') ∧ Zeros R (n + m) t' := by
  induction m generalizing n t entries with
  | zero => exact ⟨t, entries, rfl, h⟩
  | succ m ih =>
    obtain ⟨t₁, hadd, h1⟩ := h.add_zeros (by omega)
    obtain ⟨t', entries', hrun, h'⟩ := ih h1 (by omega) (entries ++ [(.globals, n * 27)])
    refine ⟨t', entries', ?_, by rwa [Nat.add_assoc, Nat.add_comm 1] at h'⟩
    rw [replicate_succ, run, foldlM_cons, Op.apply, hadd]
    exact hrun

end Zeros

theorem exists_of_mem_mapM {α β : Type} {f : α → Option β} {l : List α} {bs : List β} (h : l.mapM f = some bs) {b : β} (hb : b ∈ bs) :
    ∃ a ∈ l, f a = some b := by
  induction l generalizing bs with
  | nil =>
    cases h
    exact absurd hb not_mem_nil
  | cons a l ih =>
    rw [mapM_cons] at h
    obtain ⟨b', hfirst, h⟩ := Option.bind_eq_some_iff.mp h
    obtain ⟨bs', hrest, h⟩ := Option.bind_eq_some_iff.mp h
    cases h
    rcases mem_cons.mp hb with rfl | hb
    · exact ⟨a, mem_cons_self, hfirst⟩
    · obtain ⟨a', ha', heq⟩ := ih hrest hb
      exact ⟨a', mem_cons_of_mem _ ha', heq⟩

/-- The words of a block that is read back begin below `2 ^ 32 + 255 * 100`. -/
theorem exists_of_mem_decodeTrace {rows : List RowInfo} {aux : Buffer} (h : decodeTrace rows aux = some ws) {w : Witness}
    (hw : w ∈ ws) : ∃ start < 2 ^ 32 + 255 * 100, w.words = aux.slice start w.ty.size := by
  obtain ⟨lists, hlists, rfl⟩ := Option.map_eq_some_iff.mp h
  obtain ⟨list, hlist, hw⟩ := mem_flatten.mp hw
  obtain ⟨row, -, hrow⟩ := exists_of_mem_mapM hlists hlist
  obtain ⟨ty, -, hrow⟩ := Option.bind_eq_some_iff.mp hrow
  obtain ⟨i, hi, hwit⟩ := exists_of_mem_mapM hrow hw
  unfold decodeWitness at hwit
  split at hwit
  · cases hwit
    refine ⟨row.auxOffset.toNat + i * ty.size, ?_, rfl⟩
    have hoffset := row.auxOffset.isLt
    have hcount := row.blockCount.isLt
    have hi' := mem_range.mp hi
    have hmul : i * ty.size ≤ 255 * 100 := Nat.mul_le_mul (by omega) ty.size_le
    omega
  · cases hwit

def onesWitness : Witness := ⟨.globals, List.replicate 27 1, rfl⟩

/-- A row that begins at `2 ^ 32` or later is looked for where another one is. -/
theorem not_add_and_write_lose_nothing : ¬ ∀ (infos : List RowInfo) (aux : Buffer) (t t' : Trace) (ops : List Op)
    (entries : List (BlockType × ℕ)), Trace.new infos aux = some t → run ops (t, [(.globals, t.globals)]) = some (t', entries) →
    NothingLost t' entries (values ops [Trace.globalsWitness]) := by
  intro hall
  generalize hm : 2 ^ 32 = m at *
  have hstart : Zeros (m + 2) 0 ⟨List.replicate (m + 2) blankRow, 0, ⟨(m + 2) * 27, fun _ => 0⟩, 0, 0, fun _ => ⟨0, 0, 0⟩⟩ :=
    ⟨List.length_replicate, rfl, rfl, rfl, rfl, fun k => rfl⟩
  obtain ⟨t₀, hadd₀, h₀⟩ := hstart.add_zeros (Nat.succ_pos _)
  have hnew : Trace.new (List.replicate (m + 2) blankRow) ⟨(m + 2) * 27, fun _ => 0⟩ = some { t₀ with globals := 0 * 27 } := by
    rw [Trace.new, hadd₀]
    rfl
  have h₁ : Zeros (m + 2) 1 { t₀ with globals := 0 * 27 } := ⟨h₀.rows, h₀.rowNext, h₀.auxNext, h₀.length, h₀.closed, h₀.get⟩
  obtain ⟨t₂, entries, hrun, h₂⟩ := h₁.run_zeros m (by omega) [(.globals, 0 * 27)]
  obtain ⟨t', hadd, -, -, -, -, -, hget⟩ := h₂.add (by omega) onesWitness rfl
  have hall' : run (List.replicate m (.add Trace.globalsWitness) ++ [.add onesWitness])
      ({ t₀ with globals := 0 * 27 }, [(.globals, 0 * 27)]) = some (t', entries ++ [(.globals, (1 + m) * 27)]) := by
    rw [run] at hrun
    rw [run, List.foldlM_append, hrun, Option.bind_eq_bind, Option.bind_some, List.foldlM_cons, Op.apply, hadd]
    rfl
  have hlost := hall _ _ _ t' _ _ hnew hall'
  have hones : onesWitness ∈ values (List.replicate m (.add Trace.globalsWitness) ++ [.add onesWitness]) [Trace.globalsWitness] := by
    rw [values, List.foldl_append, List.foldl_cons, List.foldl_nil, Op.value]
    exact List.mem_append_right _ List.mem_cons_self
  obtain ⟨start, hlt, hwords⟩ := exists_of_mem_decodeTrace hlost.decoded
    (List.mem_flatMap.mpr ⟨.globals, List.mem_cons_self, List.mem_filter.mpr ⟨hones, decide_eq_true rfl⟩⟩)
  have hsize : onesWitness.ty.size = 26 + 1 := by decide
  have hfirst : onesWitness.words = t'.aux.get (start + 0) :: (List.range 26).map (fun k => t'.aux.get (start + (k + 1))) := by
    rw [hwords, Buffer.slice, hsize, List.range_succ_eq_map, List.map_cons, List.map_map]
    rfl
  have hbefore : ¬((1 + m) * 27 ≤ start + 0 ∧ start + 0 < (1 + m) * 27 + 27) := by
    intro hwithin
    omega
  rw [hget, if_neg hbefore] at hfirst
  exact absurd (List.cons.inj hfirst).1 (by decide)

end VerifiableCompute.Rv32im.Preflight
