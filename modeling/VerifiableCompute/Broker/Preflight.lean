import VerifiableCompute.Market.Requirements

/-! Preflights of orders. What an order's program does on its input is looked up under the data of the order's
predicate and under its input, so that an order whose predicate does not say which program is meant may be
judged by the program of another. -/

namespace VerifiableCompute.Broker

open Lib Market List Option

/-- What the limits of an order are made of: its prices, the cap that is configured, and the cycles that can be
proven until it expires, and after its lock expires. -/
structure LimitTerms where
  fulfillAfterLockExpire : Bool
  collateralBasedLimit : U64
  ethBasedLimit : U64
  /-- None for a priority requestor. -/
  configCycleLimit : Option U64
  deadlineLimits : Option (U64 × U64)

/-- How far an order is executed, and how far it would be proven. -/
structure ExecLimits where
  preflight : U64
  prove : U64
  le : prove ≤ preflight

namespace LimitTerms

variable (t : LimitTerms)

def byPrice : ExecLimits :=
  if t.fulfillAfterLockExpire then ⟨t.collateralBasedLimit, t.collateralBasedLimit, BitVec.le_refl _⟩
  else if h : t.collateralBasedLimit < t.ethBasedLimit then ⟨t.ethBasedLimit, t.ethBasedLimit, BitVec.le_refl _⟩
  else ⟨t.collateralBasedLimit, t.ethBasedLimit, BitVec.not_lt.mp h⟩

def capped (limits : ExecLimits) : ExecLimits :=
  match t.configCycleLimit with
  | none => limits
  | some cap =>
    if h : cap < limits.prove then ⟨cap, cap, BitVec.le_refl _⟩
    else if cap < limits.preflight then ⟨cap, limits.prove, BitVec.not_lt.mp h⟩
    else limits

/-- The lower of two limits. -/
def lower (a b : U64) : U64 := if b < a then b else a

def newPreflightLimit (deadlineLimit afterExpiryLimit : U64) : U64 :=
  if t.fulfillAfterLockExpire then deadlineLimit
  else if deadlineLimit < afterExpiryLimit then afterExpiryLimit else deadlineLimit

theorem lower_mono {a b c d : U64} (hab : a ≤ b) (hcd : c ≤ d) : lower a c ≤ lower b d := by
  unfold lower
  split_ifs <;> bv_omega

theorem le_newPreflightLimit (deadlineLimit afterExpiryLimit : U64) : deadlineLimit ≤ t.newPreflightLimit deadlineLimit afterExpiryLimit := by
  unfold newPreflightLimit
  split_ifs with hexpired hlt
  · exact BitVec.le_refl _
  · exact BitVec.le_of_lt hlt
  · exact BitVec.le_refl _

/-- What cannot be proven in time is not worth an execution, unless it can be proven after the lock expires. -/
def inTime (limits : ExecLimits) : ExecLimits :=
  match t.deadlineLimits with
  | none => limits
  | some (deadlineLimit, afterExpiryLimit) =>
    ⟨lower limits.preflight (t.newPreflightLimit deadlineLimit afterExpiryLimit), lower limits.prove deadlineLimit,
      lower_mono limits.le (t.le_newPreflightLimit deadlineLimit afterExpiryLimit)⟩

def calculateExecLimits : ExecLimits := inTime t (capped t t.byPrice)

/-- Limits below others. -/
structure Lowered (limits limits' : ExecLimits) : Prop where
  preflight : limits'.preflight ≤ limits.preflight
  prove : limits'.prove ≤ limits.prove

theorem Lowered.trans {a b c : ExecLimits} (hab : Lowered a b) (hbc : Lowered b c) : Lowered a c :=
  ⟨BitVec.le_trans hbc.preflight hab.preflight, BitVec.le_trans hbc.prove hab.prove⟩

theorem lowered_capped (limits : ExecLimits) : Lowered limits (t.capped limits) := by
  unfold capped
  cases t.configCycleLimit with
  | none => exact ⟨BitVec.le_refl _, BitVec.le_refl _⟩
  | some cap =>
    have hle := limits.le
    simp only
    constructor <;> split_ifs <;> simp only [BitVec.le_def, BitVec.lt_def] at * <;> omega

theorem lower_le (a b : U64) : lower a b ≤ a := by
  unfold lower
  split_ifs with h
  · exact BitVec.le_of_lt h
  · exact BitVec.le_refl _

theorem lowered_inTime (limits : ExecLimits) : Lowered limits (t.inTime limits) := by
  unfold inTime
  cases t.deadlineLimits with
  | none => exact ⟨BitVec.le_refl _, BitVec.le_refl _⟩
  | some deadlineLimits => exact ⟨lower_le _ _, lower_le _ _⟩

theorem lowered_calculateExecLimits : Lowered t.byPrice t.calculateExecLimits :=
  (t.lowered_capped t.byPrice).trans (t.lowered_inTime _)

end LimitTerms

/-- What a program does on an input. It is not cut off at a limit from `needs` on, which is not above the
cycles that are counted. -/
inductive Execution
  | exits (needs cycles : U64) (journal : Bytes) (needs_le : needs ≤ cycles)
  | panics (needs : U64)
  | fails (needs : U64)

/-- What is fetched and run is the same every time. -/
structure World where
  fetch : Bytes → Option Bytes
  maxSize : ℕ
  isPriorityRequestor : Address → Bool
  computeImageId : Bytes → Option Binfmt.Digest
  decodeInput : Bytes → Option Bytes
  execute : Binfmt.Digest → Bytes → Execution
  sha256 : Bytes → Binfmt.Digest

inductive OrderPickerErr
  | fetchImageErr
  | fetchInputErr
  | unexpectedErr
  deriving DecidableEq

inductive ProverAnswer
  | done (cycles : U64) (journal : Bytes)
  | sessionLimitExceeded
  | guestPanicked
  | failed

def Execution.run (limit : U64) : Execution → ProverAnswer
  | .exits needs cycles journal _ => if limit < needs then .sessionLimitExceeded else .done cycles journal
  | .panics needs => if limit < needs then .sessionLimitExceeded else .guestPanicked
  | .fails needs => if limit < needs then .sessionLimitExceeded else .failed

inductive InputCacheKey
  | url (url : Bytes)
  | hash (digest : Binfmt.Digest)
  deriving DecidableEq

structure PreflightCacheKey where
  predicateData : Bytes
  input : InputCacheKey
  deriving DecidableEq

inductive PreflightCacheValue
  | success (execSessionId : ℕ) (cycleCount : U64) (imageId : Binfmt.Digest) (input : Bytes)
  | skip (cachedLimit : U64)

/-- The part of a picker, and of its prover, that remembers. -/
structure Picker where
  cache : List (PreflightCacheKey × PreflightCacheValue)
  images : List Binfmt.Digest
  /-- The journals of the sessions. -/
  sessions : List Bytes

/-- How an order is judged. -/
inductive Judgement
  | skipped
  | evaluated (imageId : Binfmt.Digest) (cycles : U64) (journal : Bytes)
  | failed (err : OrderPickerErr)
  deriving DecidableEq

/-- An order is priced under these terms. -/
structure Pricing where
  request : ProofRequest
  terms : LimitTerms

namespace World

variable (w : World)

/-- Priority requestors may use inputs of any size. -/
def fetchUri (url : Bytes) (skipMaxSizeLimit : Bool) : Option Bytes :=
  (w.fetch url).filter fun data => skipMaxSizeLimit || decide (data.length ≤ w.maxSize)

def fetchImage (request : ProofRequest) : Option Binfmt.Digest := (w.fetchUri request.imageUrl false).bind w.computeImageId

end World

def Guest.Predicate.imageId : Guest.Predicate → Option Binfmt.Digest
  | .digestMatch imageId _ => some imageId
  | .prefixMatch imageId _ => some imageId
  | .claimDigestMatch _ => none

namespace Picker

variable (w : World)

/-- An image that is named and known is not fetched. -/
def uploadImageUri (images : List Binfmt.Digest) (request : ProofRequest) : Option (Binfmt.Digest × List Binfmt.Digest) := do
  let predicate ← Guest.Predicate.tryFrom request.requirements.predicate
  match Guest.Predicate.imageId predicate with
  | some imageId =>
    if imageId ∈ images then return (imageId, images)
    else do
      let fetched ← w.fetchImage request
      if fetched = imageId then return (imageId, imageId :: images) else none
  | none => do
    let fetched ← w.fetchImage request
    return (fetched, fetched :: images)

def isUtf8 (bytes : Bytes) : Bool := ByteArray.validateUTF8 ⟨(bytes.map fun b => UInt8.ofBitVec b).toArray⟩

def uploadInputUri (request : ProofRequest) : Option Bytes :=
  match request.input.inputType with
  | .inline => w.decodeInput request.input.data
  | .url => (w.fetchUri request.input.data (w.isPriorityRequestor (client request.id))).bind w.decodeInput

def cacheKey (request : ProofRequest) : Except OrderPickerErr PreflightCacheKey :=
  match request.input.inputType with
  | .url => if isUtf8 request.input.data then .ok ⟨request.requirements.predicate.data, .url request.input.data⟩ else .error .fetchInputErr
  | .inline => .ok ⟨request.requirements.predicate.data, .hash (w.sha256 request.input.data)⟩

variable (s : Picker)

def execute (request : ProofRequest) (limit : U64) : Picker × Except OrderPickerErr PreflightCacheValue :=
  match uploadImageUri w s.images request with
  | none => (s, .error .fetchImageErr)
  | some (imageId, images) =>
    let s := { s with images }
    match uploadInputUri w request with
    | none => (s, .error .fetchInputErr)
    | some input =>
      match (w.execute imageId input).run limit with
      | .done cycles journal => ({ s with sessions := s.sessions ++ [journal] }, .ok (.success s.sessions.length cycles imageId input))
      | .sessionLimitExceeded => (s, .ok (.skip limit))
      -- A limit that none exceeds: the program is not run again.
      | .guestPanicked => (s, .ok (.skip (BitVec.allOnes 64)))
      | .failed => (s, .error .unexpectedErr)

/-- Only values are kept. -/
def executeCached (key : PreflightCacheKey) (request : ProofRequest) (limit : U64) : Picker × Except OrderPickerErr PreflightCacheValue :=
  match s.execute w request limit with
  | (s, .ok value) => ({ s with cache := (key, value) :: s.cache }, .ok value)
  | (s, .error err) => (s, .error err)

def invalidate (key : PreflightCacheKey) : Picker := { s with cache := s.cache.filter fun e => e.1 ≠ key }

/-- An execution that was cut off is done again when more is allowed. -/
def preflight (key : PreflightCacheKey) (request : ProofRequest) (limit : U64) : Picker × Except OrderPickerErr PreflightCacheValue :=
  match s.cache.lookup key with
  | none => s.executeCached w key request limit
  | some (.success execSessionId cycleCount imageId input) => (s, .ok (.success execSessionId cycleCount imageId input))
  | some (.skip cachedLimit) =>
    if cachedLimit < limit then (s.invalidate key).executeCached w key request limit else (s, .ok (.skip cachedLimit))

def judge (limits : ExecLimits) : Except OrderPickerErr PreflightCacheValue → Judgement
  | .error err => .failed err
  | .ok (.skip _) => .skipped
  | .ok (.success execSessionId cycleCount imageId _) =>
    if limits.prove < cycleCount then .skipped
    else
      match s.sessions[execSessionId]? with
      | some journal => .evaluated imageId cycleCount journal
      | none => .failed .unexpectedErr

def priceOrder (p : Pricing) : Picker × Judgement :=
  let limits := p.terms.calculateExecLimits
  if limits.prove < 2 then (s, .skipped)
  else
    match cacheKey w p.request with
    | .error err => (s, .failed err)
    | .ok key =>
      let (s, value) := s.preflight w key p.request limits.preflight
      (s, s.judge limits value)

/-- The image that an order is about. -/
def imageSource (request : ProofRequest) : Option Binfmt.Digest := do
  let predicate ← Guest.Predicate.tryFrom request.requirements.predicate
  match Guest.Predicate.imageId predicate with
  | some imageId => some imageId
  | none => w.fetchImage request

/-- The program and the input that an order is about. -/
def source (request : ProofRequest) : Option (Binfmt.Digest × Bytes) := do
  let imageId ← imageSource w request
  let input ← uploadInputUri w request
  return (imageId, input)

/-- The pickers that are reached, with the orders that were priced. Entries of the cache may expire at any time, and
images may come from elsewhere. -/
inductive Run (allowed : List Pricing → Picker → Pricing → Prop) : List Pricing → Picker → Prop
  | start (images : List Binfmt.Digest) : Run allowed [] ⟨[], images, []⟩
  | price {priced : List Pricing} {s : Picker} {p : Pricing} (hrun : Run allowed priced s) (hallowed : allowed priced s p) :
      Run allowed (priced ++ [p]) (s.priceOrder w p).1
  | expire {priced : List Pricing} {s : Picker} (key : PreflightCacheKey) (hrun : Run allowed priced s) : Run allowed priced (s.invalidate key)
  | upload {priced : List Pricing} {s : Picker} (imageId : Binfmt.Digest) (hrun : Run allowed priced s) :
      Run allowed priced { s with images := imageId :: s.images }

/-- When there is an entry for an order, the orders that were priced under its key are about the same program and input. -/
def Compatible (priced : List Pricing) (s : Picker) (p : Pricing) : Prop :=
  ∀ key value, cacheKey w p.request = .ok key → s.cache.lookup key = some value →
    ∀ p' ∈ priced, cacheKey w p'.request = .ok key → source w p'.request = source w p.request

/-- The value is about this execution. -/
def Describes (sessions : List Bytes) (imageId : Binfmt.Digest) (input : Bytes) : PreflightCacheValue → Prop
  | .success execSessionId cycleCount imageId' input' =>
    imageId' = imageId ∧ input' = input ∧ ∃ needs journal h,
      w.execute imageId input = .exits needs cycleCount journal h ∧ sessions[execSessionId]? = some journal
  | .skip cachedLimit => ∀ limit ≤ cachedLimit,
      (w.execute imageId input).run limit = .sessionLimitExceeded ∨ (w.execute imageId input).run limit = .guestPanicked

/-- The entry was made by an order under its key. -/
def Made (priced : List Pricing) (s : Picker) (entry : PreflightCacheKey × PreflightCacheValue) : Prop :=
  ∃ p ∈ priced, cacheKey w p.request = .ok entry.1 ∧
    ∃ imageId input, source w p.request = some (imageId, input) ∧ imageId ∈ s.images ∧ Describes w s.sessions imageId input entry.2

def Known (priced : List Pricing) (s : Picker) : Prop := ∀ entry ∈ s.cache, Made w priced s entry

/-- How an order is judged by an execution of its own. -/
def judgement (limits : ExecLimits) (imageId : Binfmt.Digest) (execution : Execution) : Judgement :=
  match execution.run limits.preflight with
  | .done cycles journal => if limits.prove < cycles then .skipped else .evaluated imageId cycles journal
  | .sessionLimitExceeded | .guestPanicked => .skipped
  | .failed => .failed .unexpectedErr

/-- How an order is judged without a cache. -/
def judgeAlone (images : List Binfmt.Digest) (limits : ExecLimits) (request : ProofRequest) : Judgement :=
  match uploadImageUri w images request with
  | none => .failed .fetchImageErr
  | some (imageId, _) =>
    match uploadInputUri w request with
    | none => .failed .fetchInputErr
    | some input => judgement limits imageId (w.execute imageId input)

section Run

variable {w} {s}
variable {e : Execution} {limit cycles : U64} {journal input : Bytes} {images : List Binfmt.Digest} {request : ProofRequest}
  {imageId : Binfmt.Digest} {s' : Picker} {value : PreflightCacheValue} {key : PreflightCacheKey} {limits : ExecLimits}

theorem run_sessionLimitExceeded {lower : U64} (h : e.run limit = .sessionLimitExceeded) (hle : lower ≤ limit) :
    e.run lower = .sessionLimitExceeded := by
  have hcut {needs : U64} (hlt : limit < needs) : lower < needs := by bv_omega
  cases e with
  | exits needs cycles journal hneeds =>
    simp only [Execution.run] at h ⊢
    split_ifs at h with hlt
    rw [if_pos (hcut hlt)]
  | panics needs =>
    simp only [Execution.run] at h ⊢
    split_ifs at h with hlt
    rw [if_pos (hcut hlt)]
  | fails needs =>
    simp only [Execution.run] at h ⊢
    split_ifs at h with hlt
    rw [if_pos (hcut hlt)]

theorem run_done (h : e.run limit = .done cycles journal) : ∃ needs hneeds, e = .exits needs cycles journal hneeds := by
  cases e with
  | exits needs cycles' journal' hneeds =>
    simp only [Execution.run] at h
    split_ifs at h
    obtain ⟨rfl, rfl⟩ := ProverAnswer.done.inj h
    exact ⟨needs, hneeds, rfl⟩
  | panics => simp only [Execution.run] at h; split_ifs at h
  | fails => simp only [Execution.run] at h; split_ifs at h

theorem run_guestPanicked (h : e.run limit = .guestPanicked) (lower : U64) :
    e.run lower = .sessionLimitExceeded ∨ e.run lower = .guestPanicked := by
  cases e with
  | exits => simp only [Execution.run] at h; split_ifs at h
  | panics needs =>
    simp only [Execution.run]
    split_ifs
    · exact .inl rfl
    · exact .inr rfl
  | fails => simp only [Execution.run] at h; split_ifs at h

theorem imageSource_of_uploadImageUri {images' : List Binfmt.Digest}
    (h : uploadImageUri w images request = some (imageId, images')) :
    imageSource w request = some imageId ∧ imageId ∈ images' ∧ ∀ x ∈ images, x ∈ images' := by
  obtain ⟨predicate, hpredicate, h⟩ := bind_eq_some_iff.mp h
  rw [imageSource, hpredicate, bind_eq_bind, bind_some]
  cases hid : Guest.Predicate.imageId predicate with
  | some named =>
    simp only [hid] at h ⊢
    split_ifs at h with hmem
    · obtain ⟨rfl, rfl⟩ := Prod.mk.inj (Option.some.inj h)
      exact ⟨rfl, hmem, fun _ h => h⟩
    · obtain ⟨fetched, -, h⟩ := bind_eq_some_iff.mp h
      split_ifs at h
      obtain ⟨rfl, rfl⟩ := Prod.mk.inj (Option.some.inj h)
      exact ⟨rfl, mem_cons_self, fun _ h => mem_cons_of_mem _ h⟩
  | none =>
    simp only [hid] at h ⊢
    obtain ⟨fetched, hfetched, h⟩ := bind_eq_some_iff.mp h
    obtain ⟨rfl, rfl⟩ := Prod.mk.inj (Option.some.inj h)
    exact ⟨hfetched, mem_cons_self, fun _ h => mem_cons_of_mem _ h⟩

theorem uploadImageUri_of_imageSource (h : imageSource w request = some imageId) (hmem : imageId ∈ images) :
    ∃ images', uploadImageUri w images request = some (imageId, images') := by
  obtain ⟨predicate, hpredicate, h⟩ := bind_eq_some_iff.mp h
  rw [uploadImageUri, hpredicate, bind_eq_bind, bind_some]
  cases hid : Guest.Predicate.imageId predicate with
  | some named =>
    simp only [hid] at h ⊢
    cases h
    exact ⟨images, if_pos hmem⟩
  | none =>
    simp only [hid] at h ⊢
    exact ⟨imageId :: images, by rw [h]; rfl⟩

theorem judge_executeCached (limits : ExecLimits) (key : PreflightCacheKey) (request : ProofRequest) :
    (s.executeCached w key request limits.preflight).1.judge limits (s.executeCached w key request limits.preflight).2 =
      judgeAlone w s.images limits request := by
  unfold executeCached execute judgeAlone judgement
  cases uploadImageUri w s.images request with
  | none => rfl
  | some uploaded =>
    obtain ⟨imageId, images⟩ := uploaded
    cases uploadInputUri w request with
    | none => rfl
    | some input =>
      dsimp only
      cases (w.execute imageId input).run limits.preflight with
      | done cycles journal =>
        simp only [judge, getElem?_concat_length]
      | sessionLimitExceeded => rfl
      | guestPanicked => rfl
      | failed => rfl

/-- What an execution leaves. -/
structure Extends (s' s : Picker) : Prop where
  images : ∀ imageId ∈ s.images, imageId ∈ s'.images
  sessions : ∀ (i : ℕ) (journal : Bytes), s.sessions[i]? = some journal → s'.sessions[i]? = some journal

theorem Extends.refl (s : Picker) : s.Extends s := ⟨fun _ h => h, fun _ _ h => h⟩

theorem Describes.of_extends (h : s'.Extends s)
    (hd : Describes w s.sessions imageId input value) : Describes w s'.sessions imageId input value := by
  cases value with
  | success =>
    obtain ⟨himage, hinput, needs, journal, hneeds, hexit, hjournal⟩ := hd
    exact ⟨himage, hinput, needs, journal, hneeds, hexit, h.sessions _ _ hjournal⟩
  | skip => exact hd

theorem execute_ok (request : ProofRequest) (limit : U64) : (s.execute w request limit).1.Extends s ∧ (s.execute w request limit).1.cache = s.cache ∧
    ∀ value, (s.execute w request limit).2 = .ok value → ∃ imageId input, source w request = some (imageId, input) ∧
      imageId ∈ (s.execute w request limit).1.images ∧ Describes w (s.execute w request limit).1.sessions imageId input value := by
  unfold execute
  cases hupload : uploadImageUri w s.images request with
  | none => exact ⟨.refl s, rfl, fun _ h => by cases h⟩
  | some uploaded =>
    obtain ⟨imageId, images⟩ := uploaded
    obtain ⟨himage, hmem, hsubset⟩ := imageSource_of_uploadImageUri hupload
    cases hinput : uploadInputUri w request with
    | none => exact ⟨⟨hsubset, fun _ _ h => h⟩, rfl, fun _ h => by cases h⟩
    | some input =>
      have hsource : source w request = some (imageId, input) := by
        rw [source, himage, bind_eq_bind, bind_some, hinput]
        rfl
      dsimp only
      cases hrun : (w.execute imageId input).run limit with
      | done cycles journal =>
        have hsessions (i : ℕ) (j : Bytes) (h : s.sessions[i]? = some j) : (s.sessions ++ [journal])[i]? = some j := by
          rw [getElem?_append_left (List.getElem?_eq_some_iff.mp h).1]
          exact h
        refine ⟨⟨hsubset, hsessions⟩, rfl, fun value hvalue => ?_⟩
        cases hvalue
        obtain ⟨needs, hneeds, hexit⟩ := run_done hrun
        exact ⟨imageId, input, hsource, hmem, rfl, rfl, needs, journal, hneeds, hexit, getElem?_concat_length⟩
      | sessionLimitExceeded =>
        refine ⟨⟨hsubset, fun _ _ h => h⟩, rfl, fun value hvalue => ?_⟩
        cases hvalue
        exact ⟨imageId, input, hsource, hmem, fun _ hle => .inl (run_sessionLimitExceeded hrun hle)⟩
      | guestPanicked =>
        refine ⟨⟨hsubset, fun _ _ h => h⟩, rfl, fun value hvalue => ?_⟩
        cases hvalue
        exact ⟨imageId, input, hsource, hmem, fun lower _ => run_guestPanicked hrun lower⟩
      | failed => exact ⟨⟨hsubset, fun _ _ h => h⟩, rfl, fun _ h => by cases h⟩

variable {priced : List Pricing} {p : Pricing}

theorem Made.of_extends {priced' : List Pricing} {entry : PreflightCacheKey × PreflightCacheValue} (h : Made w priced s entry)
    (hextends : s'.Extends s) (hpriced : ∀ p ∈ priced, p ∈ priced') : Made w priced' s' entry := by
  obtain ⟨p, hp, hkey, imageId, input, hsource, hmem, hdescribes⟩ := h
  exact ⟨p, hpriced p hp, hkey, imageId, input, hsource, hextends.images _ hmem, hdescribes.of_extends hextends⟩

section

variable (h : Known w priced s)

include h

theorem known_executeCached (hkey : cacheKey w p.request = .ok key) (limit : U64) :
    Known w (priced ++ [p]) (s.executeCached w key p.request limit).1 := by
  obtain ⟨hextends, hcache, hok⟩ := @execute_ok w s p.request limit
  have hold (entry : PreflightCacheKey × PreflightCacheValue) (hentry : entry ∈ s.cache) :
      Made w (priced ++ [p]) (s.execute w p.request limit).1 entry :=
    (h entry hentry).of_extends hextends fun _ hp => mem_append_left _ hp
  unfold executeCached
  generalize hexecute : s.execute w p.request limit = result at hextends hcache hok hold
  obtain ⟨s', value | value⟩ := result
  · intro entry hentry
    exact hold entry (hcache ▸ hentry)
  · intro entry hentry
    obtain rfl | hentry := mem_cons.mp hentry
    · obtain ⟨imageId, input, hsource, hmem, hdescribes⟩ := hok value rfl
      exact ⟨p, mem_append_right _ (mem_singleton.mpr rfl), hkey, imageId, input, hsource, hmem, hdescribes⟩
    · exact hold entry (hcache ▸ hentry)

theorem known_invalidate (key : PreflightCacheKey) : Known w priced (s.invalidate key) :=
  fun entry hentry => h entry (mem_of_mem_filter hentry)

theorem known_more : Known w (priced ++ [p]) s :=
  fun entry hentry => (h entry hentry).of_extends (.refl s) fun _ hp => mem_append_left _ hp

theorem known_priceOrder : Known w (priced ++ [p]) (s.priceOrder w p).1 := by
  unfold priceOrder
  dsimp only
  split_ifs
  · exact known_more h
  · cases hkey : cacheKey w p.request with
    | error => exact known_more h
    | ok key =>
      dsimp only
      unfold preflight
      cases s.cache.lookup key with
      | none => exact known_executeCached h hkey _
      | some value =>
        cases value with
        | success => exact known_more h
        | skip cachedLimit =>
          dsimp only
          split_ifs
          · exact known_executeCached (known_invalidate h key) hkey _
          · exact known_more h

end

theorem Run.known {allowed : List Pricing → Picker → Pricing → Prop} (hrun : Run w allowed priced s) : Known w priced s := by
  induction hrun with
  | start => exact fun _ hmem => absurd hmem not_mem_nil
  | price _ _ ih => exact known_priceOrder ih
  | expire key _ ih => exact known_invalidate ih key
  | upload imageId _ ih =>
    exact fun entry hentry => (ih entry hentry).of_extends ⟨fun _ h => mem_cons_of_mem _ h, fun _ _ h => h⟩ fun _ h => h

/-- A value that describes an order's own execution is judged like it. -/
theorem judge_describes
    (hd : Describes w s.sessions imageId input value) (hlimit : ∀ cachedLimit, value = .skip cachedLimit → limits.preflight ≤ cachedLimit) :
    s.judge limits (.ok value) = judgement limits imageId (w.execute imageId input) := by
  cases value with
  | success execSessionId cycleCount imageId' input' =>
    obtain ⟨rfl, rfl, needs, journal, hneeds, hexit, hjournal⟩ := hd
    simp only [judge, judgement, hexit, Execution.run, hjournal]
    by_cases hcut : limits.preflight < needs
    · -- An execution that this order would have cut off is too long for it to prove.
      have hlong : limits.prove < cycleCount := by
        have hle : limits.prove ≤ limits.preflight := limits.le
        have hcycles : needs ≤ cycleCount := hneeds
        bv_omega
      rw [if_pos hlong, if_pos hcut]
    · rw [if_neg hcut]
  | skip cachedLimit =>
    obtain hrun | hrun := hd limits.preflight (hlimit cachedLimit rfl)
    · rw [judgement, hrun]
      rfl
    · rw [judgement, hrun]
      rfl

theorem judge_preflight (h : Known w priced s) (hcompatible : Compatible w priced s p) (hkey : cacheKey w p.request = .ok key)
    (limits : ExecLimits) : (s.preflight w key p.request limits.preflight).1.judge limits (s.preflight w key p.request limits.preflight).2 =
      judgeAlone w s.images limits p.request := by
  unfold preflight
  cases hlookup : s.cache.lookup key with
  | none => exact judge_executeCached limits key p.request
  | some value =>
    have hmem : (key, value) ∈ s.cache := by
      obtain ⟨before, after, hsplit, -⟩ := lookup_eq_some_iff.mp hlookup
      rw [hsplit]
      exact mem_append_right _ mem_cons_self
    obtain ⟨p', hp', hkey', imageId, input, hsource, himage, hdescribes⟩ := h _ hmem
    rw [hcompatible key value hkey hlookup p' hp' hkey'] at hsource
    obtain ⟨imageId', himageSource, hsource⟩ := bind_eq_some_iff.mp hsource
    obtain ⟨input', hinput, hsource⟩ := bind_eq_some_iff.mp hsource
    obtain ⟨rfl, rfl⟩ := Prod.mk.inj (Option.some.inj hsource)
    obtain ⟨images, hupload⟩ := uploadImageUri_of_imageSource himageSource himage
    have halone : judgeAlone w s.images limits p.request = judgement limits imageId' (w.execute imageId' input') := by
      rw [judgeAlone, hupload, hinput]
    rw [halone]
    cases value with
    | success => exact judge_describes hdescribes fun _ heq => by cases heq
    | skip cachedLimit =>
      dsimp only
      split_ifs with hlt
      · rw [judge_executeCached, ← halone]
        rfl
      · exact judge_describes hdescribes fun _ heq => by
          obtain rfl := PreflightCacheValue.skip.inj heq
          exact BitVec.not_lt.mp hlt

theorem judgeAlone_evaluated (h : judgeAlone w images limits request = .evaluated imageId cycles journal) :
    (∃ images', uploadImageUri w images request = some (imageId, images')) ∧ ∃ input, uploadInputUri w request = some input ∧
      ∃ needs hneeds, w.execute imageId input = .exits needs cycles journal hneeds := by
  unfold judgeAlone judgement at h
  split at h
  next => cases h
  next imageId' images' hupload =>
    split at h
    next => cases h
    next input hinput =>
      split at h
      next cycles' journal' hrun =>
        split_ifs at h
        obtain ⟨rfl, rfl, rfl⟩ := Judgement.evaluated.inj h
        exact ⟨⟨images', hupload⟩, input, hinput, run_done hrun⟩
      next => cases h
      next => cases h
      next => cases h

end Run

def cleared (s : Picker) : Picker := { s with cache := [] }

end Picker

/-- Orders under one key that are about the same program and input are judged as without the cache, by an
execution of their own. -/
theorem preflight_transparent (w : World) (priced : List Pricing) (s : Picker) (hrun : Picker.Run w (Picker.Compatible w) priced s) (p : Pricing)
    (hcompatible : Picker.Compatible w priced s p) : (s.priceOrder w p).2 = (s.cleared.priceOrder w p).2 ∧
      ∀ imageId cycles journal, (s.priceOrder w p).2 = .evaluated imageId cycles journal →
        (∃ images, Picker.uploadImageUri w s.images p.request = some (imageId, images)) ∧ ∃ input, Picker.uploadInputUri w p.request = some input ∧
          ∃ needs hneeds, w.execute imageId input = .exits needs cycles journal hneeds := by
  have hknown := hrun.known
  unfold Picker.priceOrder
  dsimp only
  split_ifs with hprove
  · exact ⟨rfl, fun _ _ _ h => by cases h⟩
  · cases hkey : Picker.cacheKey w p.request with
    | error => exact ⟨rfl, fun _ _ _ h => by cases h⟩
    | ok key =>
      have hcached := Picker.judge_preflight hknown hcompatible hkey p.terms.calculateExecLimits
      have hcleared := @Picker.judge_executeCached w s.cleared p.terms.calculateExecLimits key p.request
      exact ⟨hcached.trans hcleared.symm, fun _ _ _ h => Picker.judgeAlone_evaluated (hcached.symm.trans h)⟩

section Sample

/-- The content of a place is its name, and so is the image of a program; image 1 runs for a cycle, all others for a hundred. -/
def sampleWorld : World where
  fetch := some
  maxSize := 10
  isPriorityRequestor := fun _ => false
  computeImageId := fun data => some (toDigest (BitVec.ofNat 256 (beNat data)))
  decodeInput := some
  execute := fun imageId _ => if imageId = toDigest 1 then .exits 1 1 [] (BitVec.le_refl _) else .exits 100 100 [] (BitVec.le_refl _)
  sha256 := fun bytes => toDigest (BitVec.ofNat 256 (beNat bytes))

/-- An order that asks for claim 0 of the program at a place. -/
def claimPricing (imageUrl : Bytes) : Pricing where
  request := { sampleRequest sampleId with
    requirements := ⟨⟨0, 0⟩, ⟨.claimDigestMatch, List.replicate 32 0⟩, 0⟩
    imageUrl }
  terms := ⟨true, 1000, 0, none, none⟩

def emptyPicker : Picker := ⟨[], [], []⟩

theorem preflight_transparent_same_order : ((emptyPicker.priceOrder sampleWorld (claimPricing [1])).1.priceOrder sampleWorld (claimPricing [1])).2 =
    ((emptyPicker.priceOrder sampleWorld (claimPricing [1])).1.cleared.priceOrder sampleWorld (claimPricing [1])).2 := by
  have hfirst : Picker.Compatible sampleWorld [] emptyPicker (claimPricing [1]) := fun _ _ _ _ _ hmem => absurd hmem List.not_mem_nil
  have hrun : Picker.Run sampleWorld (Picker.Compatible sampleWorld) [claimPricing [1]] (emptyPicker.priceOrder sampleWorld (claimPricing [1])).1 :=
    .price (.start []) hfirst
  refine (preflight_transparent sampleWorld _ _ hrun (claimPricing [1]) fun _ _ _ _ p hmem _ => ?_).1
  rw [List.mem_singleton.mp hmem]

/-- The program at the second order's place runs for a hundred cycles, and it is judged by the first order's. -/
theorem preflight_of_other_program : ¬∀ (w : World) (priced : List Pricing) (s : Picker), Picker.Run w (fun _ _ _ => True) priced s →
    ∀ p : Pricing, (s.priceOrder w p).2 = (s.cleared.priceOrder w p).2 := by
  intro hall
  have hrun : Picker.Run sampleWorld (fun _ _ _ => True) [claimPricing [1]] (emptyPicker.priceOrder sampleWorld (claimPricing [1])).1 :=
    .price (.start []) trivial
  have hsame := hall sampleWorld _ _ hrun (claimPricing [2])
  have hcached : ((emptyPicker.priceOrder sampleWorld (claimPricing [1])).1.priceOrder sampleWorld (claimPricing [2])).2 =
      .evaluated (toDigest 1) 1 [] := by decide
  have halone : ((emptyPicker.priceOrder sampleWorld (claimPricing [1])).1.cleared.priceOrder sampleWorld (claimPricing [2])).2 =
      .evaluated (toDigest 2) 100 [] := by decide
  exact absurd (hcached.symm.trans (hsame.trans halone)) (by decide)

end Sample

end VerifiableCompute.Broker
