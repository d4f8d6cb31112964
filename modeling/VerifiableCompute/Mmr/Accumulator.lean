import VerifiableCompute.Lib.Checked
import VerifiableCompute.Lib.Mountain

/-! The accumulator that the guest keeps over its keccak claims. It merges peaks of the same
height as soon as they are there, the newer one first. -/

namespace VerifiableCompute.Mmr

open Lib List

inductive MmrError
  | noElements
  | differentHeights

structure Peak (Item : Type) where
  item : Item
  height : ℕ

variable {Item : Type} (mergeItem : Item → Item → Item)

namespace Peak

def new (item : Item) : Peak Item := ⟨item, 0⟩

def merge (a b : Peak Item) : Except MmrError (Peak Item) := do
  require (a.height = b.height) .differentHeights
  return ⟨mergeItem a.item b.item, a.height + 1⟩

end Peak

/-- The peaks run from the front to the back. -/
structure MerkleMountainAccumulator (Item : Type) where
  peaks : List (Peak Item)

namespace MerkleMountainAccumulator

def new : MerkleMountainAccumulator Item := ⟨[]⟩

def insertLoop : Peak Item → List (Peak Item) → Except MmrError (List (Peak Item))
  | toAdd, [] => .ok [toAdd]
  | toAdd, back :: peaks =>
    if toAdd.height = back.height then do
      let toAdd ← Peak.merge mergeItem toAdd back
      insertLoop toAdd peaks
    else .ok (toAdd :: back :: peaks)

def insert (item : Item) (mmr : MerkleMountainAccumulator Item) : Except MmrError (MerkleMountainAccumulator Item) := do
  let peaks ← insertLoop mergeItem (.new item) mmr.peaks.reverse
  return ⟨peaks.reverse⟩

/-- The peaks from the front, merged into one item. -/
def root (mmr : MerkleMountainAccumulator Item) : Except MmrError Item :=
  match mmr.peaks with
  | [] => .error .noElements
  | peak :: peaks => .ok (peaks.foldl (fun item peak => mergeItem item peak.item) peak.item)

def insertAll (items : List Item) : Except MmrError (MerkleMountainAccumulator Item) :=
  items.foldlM (fun mmr item => mmr.insert mergeItem item) new

variable {mergeItem}

/-- The tree of a mountain as a peak. -/
def peakOf (p : ℕ × Item) : Peak Item := ⟨p.2, p.1⟩

theorem insertLoop_eq_carry (hcomm : ∀ a b, mergeItem a b = mergeItem b a) (h : ℕ) (item : Item) (peaks : List (ℕ × Item)) :
    insertLoop mergeItem (peakOf (h, item)) (peaks.map peakOf) = .ok ((carry mergeItem h item peaks).map peakOf) := by
  induction peaks generalizing h item with
  | nil => rfl
  | cons peak peaks ih =>
    rw [map_cons, insertLoop, carry]
    by_cases heq : h = peak.1
    · have hmerge : Peak.merge mergeItem (peakOf (h, item)) (peakOf peak) = .ok (peakOf (h + 1, mergeItem peak.2 item)) := by
        have hrequire : require ((peakOf (h, item)).height = (peakOf peak).height) MmrError.differentHeights = .ok () := if_pos heq
        rw [Peak.merge, hrequire, hcomm peak.2 item]
        rfl
      rw [if_pos heq, show (peakOf (h, item)).height = (peakOf peak).height from heq, if_pos rfl, hmerge]
      exact ih (h + 1) (mergeItem peak.2 item)
    · rw [if_neg heq, if_neg (show (peakOf (h, item)).height ≠ (peakOf peak).height from heq)]
      rfl

variable (hcomm : ∀ a b, mergeItem a b = mergeItem b a) {leaf : ℕ → Item} {items : List Item} (hleaf : ∀ i (h : i < items.length), items[i] = leaf i)

include hcomm leaf items hleaf

/-- After each item the peaks are those of the mountain over the items so far. -/
theorem insertAll_take :
    insertAll mergeItem items = .ok ⟨((mountain mergeItem leaf 0 items.length).map peakOf).reverse⟩ := by
  induction items using reverseRecOn with
  | nil =>
    rw [length_nil, mountain_zero]
    rfl
  | append_singleton items item ih =>
    have hearlier := ih fun i hi => by
      rw [← hleaf i (by simp; omega), getElem_append_left hi]
    have hitem : item = leaf items.length := by
      rw [← hleaf items.length (by simp)]
      simp
    have hloop := insertLoop_eq_carry hcomm 0 item (mountain mergeItem leaf 0 items.length)
    have hnext : carry mergeItem 0 item (mountain mergeItem leaf 0 items.length) = mountain mergeItem leaf 0 (items.length + 1) := by
      rw [hitem]
      exact carry_mountain 0 items.length
    have hinsert : insert mergeItem item ⟨((mountain mergeItem leaf 0 items.length).map peakOf).reverse⟩ =
        .ok ⟨((mountain mergeItem leaf 0 (items.length + 1)).map peakOf).reverse⟩ := by
      rw [insert, reverse_reverse, ← hnext]
      exact bind_ok_iff.mpr ⟨_, hloop, rfl⟩
    rw [length_append, length_singleton, insertAll, foldlM_append]
    refine bind_ok_iff.mpr ⟨_, hearlier, ?_⟩
    rw [foldlM_cons]
    exact bind_ok_iff.mpr ⟨_, hinsert, rfl⟩

theorem root_insertAll {item : Item} (hroot : mountainRoot mergeItem leaf items.length = some item) :
    (do (← insertAll mergeItem items).root mergeItem) = .ok item := by
  rw [insertAll_take hcomm hleaf]
  rw [mountainRoot, ← map_reverse] at hroot
  show root mergeItem ⟨_⟩ = _
  rw [root, ← map_reverse]
  cases hpeaks : (mountain mergeItem leaf 0 items.length).reverse with
  | nil =>
    rw [hpeaks] at hroot
    cases hroot
  | cons peak peaks =>
    rw [hpeaks] at hroot
    rw [← Option.some.inj hroot]
    simp only [map_cons, foldl_map]
    rfl

end MerkleMountainAccumulator

end VerifiableCompute.Mmr
