import Mathlib

/-! The atomic instructions on words of 32-bit RISC-V, on a single hart: a load that reserves its address, a store that
succeeds only on a reservation, and operations that read and write memory. -/

namespace VerifiableCompute.Lib.RiscVAtomic

open List

abbrev Word := BitVec 32

abbrev Reg := BitVec 5

/-- What an operation makes of the word in memory and of its operand. -/
inductive Amo
  | swap | add | xor | and | or | min | max | minu | maxu
  deriving DecidableEq

def Amo.eval : Amo → Word → Word → Word
  | .swap, _, y => y
  | .add, x, y => x + y
  | .xor, x, y => x ^^^ y
  | .and, x, y => x &&& y
  | .or, x, y => x ||| y
  | .min, x, y => if x.toInt ≤ y.toInt then x else y
  | .max, x, y => if y.toInt ≤ x.toInt then x else y
  | .minu, x, y => if x.toNat ≤ y.toNat then x else y
  | .maxu, x, y => if y.toNat ≤ x.toNat then x else y

inductive Op
  | lr
  | sc
  | amo (op : Amo)
  deriving DecidableEq

structure Instr where
  op : Op
  rd : Reg
  rs1 : Reg
  rs2 : Reg
  deriving DecidableEq

/-- The operation in the five highest bits. -/
def Op.decode (funct5 : BitVec 5) : Option Op :=
  match funct5.toNat with
  | 0b00010 => some .lr
  | 0b00011 => some .sc
  | 0b00001 => some (.amo .swap)
  | 0b00000 => some (.amo .add)
  | 0b00100 => some (.amo .xor)
  | 0b01100 => some (.amo .and)
  | 0b01000 => some (.amo .or)
  | 0b10000 => some (.amo .min)
  | 0b10100 => some (.amo .max)
  | 0b11000 => some (.amo .minu)
  | 0b11100 => some (.amo .maxu)
  | _ => none

/-- The bits 25 and 26 order the instruction among others, which on one hart are in order anyway. -/
def Instr.decode (word : Word) : Option Instr :=
  if word.extractLsb' 0 7 = 0b0101111 ∧ word.extractLsb' 12 3 = 0b010 then
    (Op.decode (word.extractLsb' 27 5)).map fun op => ⟨op, word.extractLsb' 7 5, word.extractLsb' 15 5, word.extractLsb' 20 5⟩
  else none

/-- Memory has a word at every address that is a multiple of four. -/
structure Hart where
  pc : Word
  regs : Reg → Word
  memory : Word → Word
  reservation : Option Word

namespace Hart

variable (h : Hart)

/-- Register zero reads as zero. -/
def read (r : Reg) : Word := if r = 0 then 0 else h.regs r

def write (rd : Reg) (value : Word) : Hart := if rd = 0 then h else { h with regs := Function.update h.regs rd value }

def store (addr value : Word) : Hart := { h with memory := Function.update h.memory addr value }

def reserve (addr : Option Word) : Hart := { h with reservation := addr }

def goto (pc : Word) : Hart := { h with pc := pc }

def next : Hart := h.goto (h.pc + 4)

/-- A store that fails writes one. -/
def exec (i : Instr) : Hart :=
  let addr := h.read i.rs1
  match i.op with
  | .lr => ((h.reserve (some addr)).write i.rd (h.memory addr)).next
  | .sc =>
    if h.reservation = some addr then (((h.store addr (h.read i.rs2)).reserve none).write i.rd 0).next
    else ((h.reserve none).write i.rd 1).next
  | .amo op => ((h.store addr (op.eval (h.memory addr) (h.read i.rs2))).write i.rd (h.memory addr)).next

variable {h}

@[simp] theorem write_reservation (rd : Reg) (value : Word) : (h.write rd value).reservation = h.reservation := by
  unfold write
  split_ifs <;> rfl

@[simp] theorem write_memory (rd : Reg) (value : Word) : (h.write rd value).memory = h.memory := by
  unfold write
  split_ifs <;> rfl

@[simp] theorem write_pc (rd : Reg) (value : Word) : (h.write rd value).pc = h.pc := by
  unfold write
  split_ifs <;> rfl

/-- The program counter takes no part in what is written. -/
theorem goto_write (pc : Word) (rd : Reg) (value : Word) : (h.write rd value).goto pc = (h.goto pc).write rd value := by
  unfold write
  split_ifs <;> rfl

theorem goto_next (pc : Word) : (h.goto pc).next = h.goto (pc + 4) := rfl

end Hart

/-- What is reserved after an instruction that is about an address. -/
def Op.reserved (before : Option Word) (addr : Word) : Op → Option Word
  | .lr => some addr
  | .sc => none
  | .amo _ => before

theorem Hart.exec_reservation (h : Hart) (i : Instr) : (h.exec i).reservation = i.op.reserved h.reservation (h.read i.rs1) := by
  unfold exec
  cases i.op with
  | sc =>
    dsimp only
    split_ifs <;> exact write_reservation ..
  | _ => exact write_reservation ..

@[simp] theorem Hart.exec_pc (h : Hart) (i : Instr) : (h.exec i).pc = h.pc + 4 := by
  unfold exec next
  cases i.op with
  | sc =>
    dsimp only
    split_ifs <;> exact congrArg (· + 4) (write_pc ..)
  | _ => exact congrArg (· + 4) (write_pc ..)

/-- Of the instructions so far, each with its address, the last load that reserves reserved this one, and no conditional
store came after it. -/
def Reserves (past : List (Op × Word)) (addr : Word) : Prop :=
  ∃ before after, past = before ++ (.lr, addr) :: after ∧ ∀ a ∈ after, a.1 ≠ .lr ∧ a.1 ≠ .sc

variable {past : List (Op × Word)} {addr addr' : Word}

theorem reserves_append_amo {op : Amo} : Reserves (past ++ [(.amo op, addr')]) addr ↔ Reserves past addr := by
  constructor
  · rintro ⟨before, after, h, hafter⟩
    rcases eq_nil_or_concat' after with rfl | ⟨after, last, rfl⟩
    · have hlast := (append_inj' h rfl).2
      cases hlast
    · rw [← cons_append, ← append_assoc] at h
      exact ⟨before, after, (append_inj' h rfl).1, fun a ha => hafter a (mem_append_left _ ha)⟩
  · rintro ⟨before, after, rfl, hafter⟩
    refine ⟨before, after ++ [(.amo op, addr')], by rw [append_assoc, cons_append], fun a ha => ?_⟩
    rcases mem_append.mp ha with ha | ha
    · exact hafter a ha
    · rw [mem_singleton.mp ha]
      exact ⟨by rintro ⟨⟩, by rintro ⟨⟩⟩

theorem reserves_append_lr : Reserves (past ++ [(.lr, addr')]) addr ↔ addr' = addr := by
  constructor
  · rintro ⟨before, after, h, hafter⟩
    rcases eq_nil_or_concat' after with rfl | ⟨after, last, rfl⟩
    · have hlast := (append_inj' h rfl).2
      cases hlast
      rfl
    · rw [← cons_append, ← append_assoc] at h
      have hlast : (.lr, addr') = last := (List.cons.inj (append_inj' h rfl).2).1
      exact absurd (congrArg Prod.fst hlast).symm (hafter last (by simp)).1
  · rintro rfl
    exact ⟨past, [], rfl, forall_mem_nil _⟩

theorem not_reserves_append_sc : ¬Reserves (past ++ [(.sc, addr')]) addr := by
  rintro ⟨before, after, h, hafter⟩
  rcases eq_nil_or_concat' after with rfl | ⟨after, last, rfl⟩
  · have hlast := (append_inj' h rfl).2
    cases hlast
  · rw [← cons_append, ← append_assoc] at h
    have hlast : (.sc, addr') = last := (List.cons.inj (append_inj' h rfl).2).1
    exact absurd (congrArg Prod.fst hlast).symm (hafter last (by simp)).2

theorem reserved_iff {before : Option Word} (h : ∀ addr, before = some addr ↔ Reserves past addr)
    (op : Op) (addr addr' : Word) : op.reserved before addr' = some addr ↔ Reserves (past ++ [(op, addr')]) addr := by
  cases op with
  | lr => exact Option.some_inj.trans reserves_append_lr.symm
  | sc => exact iff_of_false (by rintro ⟨⟩) not_reserves_append_sc
  | amo op => exact (h addr).trans reserves_append_amo.symm

end VerifiableCompute.Lib.RiscVAtomic
