/-
# Accumulation.Tracing.StartSpan — which spans are sampled.

A span starts with a parent or as the root of a new trace, and a sampler decides whether it is
recorded.  The parent is found in a header, or among the Go contexts that spans have been started in.

Seen over all hosts, every span belongs to the trace of a root.  If the samplers go by the parent, a
trace is sampled as a whole or not at all (`traces_whole`).  If they go by a rate, under parents or
not, whether a span is sampled depends on its trace alone (`traces_by_rate`), given one rate and one
byte order everywhere: of the 2^64 numbers a trace can have in it, a rate of `n` samples 2^32 times `n`.
-/
import Accumulation.Lib.Run
import Accumulation.Tracing.SpanContext

namespace Accumulation.Tracing

open Accumulation.Lib.Run

/-! ## Samplers -/

/-- `FLAG_SAMPLED` -/
def flagSampled : UInt8 := 1

def traceFlagsIsSampled (flags : UInt8) : Bool := flags &&& flagSampled = flagSampled

structure ParentBasedConfig where
  root : UInt32
  remoteParentSampled : UInt32
  remoteParentNotSampled : UInt32
  localParentSampled : UInt32
  localParentNotSampled : UInt32
  deriving DecidableEq, Repr

/-- A `sampling_config`: its type, with what the type reads of `config_data`. -/
inductive SamplingConfig
  | alwaysOn
  | alwaysOff
  | traceIDRatio (samplingRateNumerator : UInt64)
  | parentBased (config : ParentBasedConfig)
  | other (type : UInt32)
  deriving DecidableEq, Repr

def maxSamplers : ℕ := 32

/-- What a host samples by. -/
structure Samplers where
  /-- the host stores the lower byte of a word first -/
  littleEndian : Bool
  /-- `samplers_config_map` -/
  configs : Fin maxSamplers → SamplingConfig
  /-- `probe_active_sampler_map` -/
  active : UInt32

/-- `sampler_id`.  Every parent counts as a local one. -/
def ParentBasedConfig.samplerID (config : ParentBasedConfig) : Option SpanContext → UInt32
  | none => config.root
  | some psc =>
    if traceFlagsIsSampled psc.traceFlags then config.localParentSampled
    else config.localParentNotSampled

/-- `bpf_map_lookup_elem` of an array -/
def Samplers.lookup (samplers : Samplers) (id : UInt32) : Option SamplingConfig :=
  if h : id.toNat < maxSamplers then some (samplers.configs ⟨id.toNat, h⟩) else none

def samplingRateDenominator : UInt64 := 4294967295

/-- The eight bytes of a `u64`. -/
def wordOf (littleEndian : Bool) (bytes : List UInt8) : UInt64 :=
  (if littleEndian then bytes.reverse else bytes).foldl (fun v b => v <<< 8 ||| b.toUInt64) 0

/-- `_traceIDRatioSampler_should_sample` of the second half of a trace. -/
def ratio (samplingRateNumerator traceIDNum : UInt64) : Bool :=
  if samplingRateNumerator = 0 then false
  else if samplingRateNumerator ≥ samplingRateDenominator then true
  else
    let traceIDUpperBound := ((1 : UInt64) <<< 63 / samplingRateDenominator) * samplingRateNumerator
    traceIDNum >>> 1 < traceIDUpperBound

namespace Samplers

variable (samplers : Samplers)

/-- The samplers that look at the trace alone. -/
def baseShouldSample (traceID : List UInt8) : SamplingConfig → Bool
  | .alwaysOn => true
  | .alwaysOff => false
  | .traceIDRatio numerator =>
    ratio numerator (wordOf samplers.littleEndian ((traceID.drop 8).take 8))
  | .parentBased _ => false
  | .other _ => false

/-- `parentBasedSampler_should_sample` -/
def parentBasedShouldSample (config : ParentBasedConfig) (psc : Option SpanContext)
    (traceID : List UInt8) : Bool :=
  match samplers.lookup (config.samplerID psc) with
  | none => false
  | some baseConfig => samplers.baseShouldSample traceID baseConfig

def shouldSample (psc : Option SpanContext) (traceID : List UInt8) : Bool :=
  match samplers.lookup samplers.active with
  | none => false
  | some (.parentBased config) => samplers.parentBasedShouldSample config psc traceID
  | some config => samplers.baseShouldSample traceID config

end Samplers

/-! ## Go contexts -/

def maxDistance : ℕ := 100

def maxConcurrentSpans : ℕ := 1000

/-- The two maps of a host. -/
structure Contexts where
  goContextToSc : AList fun _ : UInt64 => SpanContext
  trackedSpansBySc : AList fun _ : SpanContext => UInt64

/-- `bpf_map_update_elem` with `BPF_ANY`; `none` is an error. -/
def update {κ ν : Type} [DecidableEq κ] (map : AList fun _ : κ => ν) (key : κ) (value : ν) :
    Option (AList fun _ : κ => ν) :=
  if map.lookup key = none ∧ maxConcurrentSpans ≤ map.keys.length then none
  else some (map.insert key value)

/-- What holds of the entries of a map. -/
def Held {κ ν : Type} [DecidableEq κ] (P : κ → ν → Prop) (map : AList fun _ : κ => ν) : Prop :=
  ∀ key value, map.lookup key = some value → P key value

section Held

variable {κ ν : Type} [DecidableEq κ] {P : κ → ν → Prop} {map map' : AList fun _ : κ => ν}

theorem Held.update {key : κ} {value : ν} (h : Held P map) (hnew : P key value)
    (hupdate : update map key value = some map') : Held P map' := by
  intro key' value' hlookup
  rw [Tracing.update] at hupdate
  split_ifs at hupdate
  obtain rfl := Option.some.inj hupdate
  by_cases hkey : key' = key
  · subst hkey
    rw [AList.lookup_insert] at hlookup
    exact Option.some.inj hlookup ▸ hnew
  · rw [AList.lookup_insert_ne hkey] at hlookup
    exact h key' value' hlookup

theorem Held.erase (h : Held P map) (key : κ) : Held P (map.erase key) := by
  intro key' value' hlookup
  by_cases hkey : key' = key
  · subst hkey
    rw [AList.lookup_erase] at hlookup
    cases hlookup
  · rw [AList.lookup_erase_ne hkey] at hlookup
    exact h key' value' hlookup

theorem held_empty : Held P (∅ : AList fun _ : κ => ν) := by
  intro key value hlookup
  rw [AList.lookup_empty] at hlookup
  cases hlookup

theorem Held.mono {Q : κ → ν → Prop} (hPQ : ∀ key value, P key value → Q key value)
    (h : Held P map) : Held Q map :=
  fun key value hlookup => hPQ key value (h key value hlookup)

end Held

namespace Contexts

variable (contexts : Contexts)

/-- The loop of `get_parent_go_context`; `read` is what `bpf_probe_read` finds behind the type of the
parent. -/
def getParentGoContext (read : UInt64 → UInt64) : ℕ → UInt64 → Option UInt64
  | 0, _ => none
  | n + 1, data =>
    if data = 0 then none
    else if contexts.goContextToSc.lookup data ≠ none then some data
    else getParentGoContext read n (read data)

def getParentSpanContext (read : UInt64 → UInt64) (data : UInt64) : Option SpanContext :=
  (contexts.getParentGoContext read maxDistance data).bind contexts.goContextToSc.lookup

def startTrackingSpan (contextContext : UInt64) (sc : SpanContext) : Contexts :=
  match update contexts.goContextToSc contextContext sc with
  | none => contexts
  | some goContextToSc =>
    match update contexts.trackedSpansBySc sc contextContext with
    | none => { contexts with goContextToSc }
    | some trackedSpansBySc => ⟨goContextToSc, trackedSpansBySc⟩

/-- `stop_tracking_span`; the two values are what `bpf_probe_read_user` leaves there. -/
def stopTrackingSpan (ctxVal parentCtxVal : UInt64) (sc : SpanContext) (psc : Option SpanContext) :
    Contexts :=
  match contexts.trackedSpansBySc.lookup sc with
  | none => contexts
  | some ctx =>
    let goContextToSc := match psc with
      | none => contexts.goContextToSc.erase ctx
      | some psc =>
        match contexts.trackedSpansBySc.lookup psc with
        | none => contexts.goContextToSc.erase ctx
        | some _ =>
          -- a parent in the same context gets the entry back
          if ctxVal ≠ parentCtxVal then contexts.goContextToSc.erase ctx
          else (update contexts.goContextToSc ctx psc).getD contexts.goContextToSc
    ⟨goContextToSc, contexts.trackedSpansBySc.erase sc⟩

/-- The maps know these spans only. -/
structure Among (spans : List SpanContext) (contexts : Contexts) : Prop where
  goContextToSc : Held (fun _ sc => sc ∈ spans) contexts.goContextToSc
  trackedSpansBySc : Held (fun sc _ => sc ∈ spans) contexts.trackedSpansBySc

variable {contexts} {spans : List SpanContext}

theorem Among.getParentSpanContext (h : Among spans contexts) {read : UInt64 → UInt64}
    {data : UInt64} {psc : SpanContext}
    (hparent : contexts.getParentSpanContext read data = some psc) : psc ∈ spans := by
  obtain ⟨key, _, hlookup⟩ := Option.bind_eq_some_iff.mp hparent
  exact h.goContextToSc key psc hlookup

theorem Among.startTrackingSpan (h : Among spans contexts) (contextContext : UInt64)
    {sc : SpanContext} (hsc : sc ∈ spans) :
    Among spans (contexts.startTrackingSpan contextContext sc) := by
  rw [Contexts.startTrackingSpan]
  cases hgo : update contexts.goContextToSc contextContext sc with
  | none => exact h
  | some goContextToSc =>
    have hkept := h.goContextToSc.update hsc hgo
    cases htracked : update contexts.trackedSpansBySc sc contextContext with
    | none => exact ⟨hkept, h.trackedSpansBySc⟩
    | some trackedSpansBySc => exact ⟨hkept, h.trackedSpansBySc.update hsc htracked⟩

theorem Among.stopTrackingSpan (h : Among spans contexts) (ctxVal parentCtxVal : UInt64)
    (sc : SpanContext) (psc : Option SpanContext) :
    Among spans (contexts.stopTrackingSpan ctxVal parentCtxVal sc psc) := by
  rw [Contexts.stopTrackingSpan]
  cases contexts.trackedSpansBySc.lookup sc with
  | none => exact h
  | some ctx =>
    refine ⟨?_, h.trackedSpansBySc.erase sc⟩
    have herased := h.goContextToSc.erase ctx
    cases psc with
    | none => exact herased
    | some psc =>
      cases hparent : contexts.trackedSpansBySc.lookup psc with
      | none => simpa only [hparent] using herased
      | some parentCtx =>
        simp only [hparent]
        split_ifs
        · exact herased
        · -- the entry goes back to the parent, which is tracked itself
          cases hupdate : update contexts.goContextToSc ctx psc with
          | none => exact h.goContextToSc
          | some goContextToSc =>
            exact h.goContextToSc.update (h.trackedSpansBySc psc parentCtx hparent) hupdate

end Contexts

/-! ## Starting a span -/

/-- `generate_random_bytes`, whose first word is the given one of those the kernel draws. -/
def generateRandomBytes (random : ℕ → UInt32) (first size : ℕ) : List UInt8 :=
  (List.range (size / 4)).flatMap fun i =>
    [(random (first + i) >>> 24).toUInt8, (random (first + i) >>> 16).toUInt8,
      (random (first + i) >>> 8).toUInt8, (random (first + i)).toUInt8]

theorem length_generateRandomBytes (random : ℕ → UInt32) (first size : ℕ) :
    (generateRandomBytes random first size).length = size / 4 * 4 := by
  rw [generateRandomBytes, List.length_flatMap]
  simp

/-- `start_span`, once it is known whether there is a parent. -/
def startSpan (samplers : Samplers) (random : ℕ → UInt32) (psc : Option SpanContext) : SpanContext :=
  let parentTraceFlags := match psc with
    | some psc => psc.traceFlags
    | none => 0
  let traceID := match psc with
    | some psc => psc.traceID
    | none => generateRandomBytes random 0 16
  let spanID := match psc with
    | some _ => generateRandomBytes random 0 8
    | none => generateRandomBytes random 4 8
  { traceID
    spanID
    traceFlags :=
      if samplers.shouldSample psc traceID then parentTraceFlags ||| flagSampled
      else parentTraceFlags &&& ~~~flagSampled
    traceID_length := by
      cases psc with
      | none => exact length_generateRandomBytes random 0 16
      | some psc => exact psc.traceID_length
    spanID_length := by
      cases psc with
      | none => exact length_generateRandomBytes random 4 8
      | some psc => exact length_generateRandomBytes random 0 8 }

/-! ## All hosts together -/

structure State where
  /-- the spans started so far -/
  spans : List SpanContext
  /-- those without a parent -/
  roots : List SpanContext
  hosts : ℕ → Contexts

def State.init : State := ⟨[], [], fun _ => ⟨∅, ∅⟩⟩

/-- Where a span has its parent from. -/
inductive Source
  /-- nowhere -/
  | absent
  /-- what `get_parent_span_context_fn` finds in the request -/
  | header (str : Chars)
  /-- the Go context, and the memory behind it -/
  | goContext (data : UInt64) (read : UInt64 → UInt64)

inductive Action
  | start (host : ℕ) (samplers : Samplers) (random : ℕ → UInt32) (source : Source)
  | startTracking (host : ℕ) (contextContext : UInt64) (sc : SpanContext)
  | stopTracking (host : ℕ) (ctxVal parentCtxVal : UInt64) (sc : SpanContext)
      (psc : Option SpanContext)

namespace State

variable (s : State)

/-- The parent from a source.  A header is one that has been written for a span. -/
def parent (host : ℕ) : Source → Option (Option SpanContext)
  | .absent => some none
  | .header str =>
    if ∃ x ∈ s.spans, str = spanContextToW3cString x then some (some (w3cStringToSpanContext str))
    else none
  | .goContext data read => some ((s.hosts host).getParentSpanContext read data)

/-- A span has started. -/
def started (psc : Option SpanContext) (sc : SpanContext) : State :=
  { s with
    spans := sc :: s.spans
    roots := if psc.isNone then sc :: s.roots else s.roots }

def setHost (host : ℕ) (contexts : Contexts) : State :=
  { s with hosts := Function.update s.hosts host contexts }

end State

def step (s : State) : Action → Option State
  | .start host samplers random source =>
    (s.parent host source).map fun psc => s.started psc (startSpan samplers random psc)
  | .startTracking host contextContext sc =>
    if sc ∈ s.spans then
      some (s.setHost host ((s.hosts host).startTrackingSpan contextContext sc))
    else none
  | .stopTracking host ctxVal parentCtxVal sc psc =>
    -- the parent may be anything here: it counts only if it is tracked
    some (s.setHost host ((s.hosts host).stopTrackingSpan ctxVal parentCtxVal sc psc))

/-! ## What starting a span does -/

def SpanContext.isSampled (sc : SpanContext) : Bool := traceFlagsIsSampled sc.traceFlags

/-- The bit that is set, cleared, and left as it was. -/
theorem sampledBit (flags : UInt8) : traceFlagsIsSampled (flags ||| flagSampled) = true ∧
    traceFlagsIsSampled (flags &&& ~~~flagSampled) = false ∧
    (if traceFlagsIsSampled flags then flags ||| flagSampled else flags &&& ~~~flagSampled) =
      flags := by
  apply forall_uInt8 (P := fun flags => traceFlagsIsSampled (flags ||| flagSampled) = true ∧
    traceFlagsIsSampled (flags &&& ~~~flagSampled) = false ∧
    (if traceFlagsIsSampled flags then flags ||| flagSampled else flags &&& ~~~flagSampled) = flags)
  decide +kernel

/-- The flags of a parent; none are set without one. -/
def parentFlags (psc : Option SpanContext) : UInt8 := psc.elim 0 SpanContext.traceFlags

theorem traceFlags_startSpan (samplers : Samplers) (random : ℕ → UInt32)
    (psc : Option SpanContext) : (startSpan samplers random psc).traceFlags =
      if samplers.shouldSample psc (startSpan samplers random psc).traceID then
        parentFlags psc ||| flagSampled
      else parentFlags psc &&& ~~~flagSampled := by
  cases psc <;> rfl

/-- The flag is the decision. -/
theorem isSampled_startSpan (samplers : Samplers) (random : ℕ → UInt32)
    (psc : Option SpanContext) : (startSpan samplers random psc).isSampled =
      samplers.shouldSample psc (startSpan samplers random psc).traceID := by
  rw [SpanContext.isSampled, traceFlags_startSpan]
  cases samplers.shouldSample psc (startSpan samplers random psc).traceID with
  | true => exact (sampledBit _).1
  | false => exact (sampledBit _).2.1

theorem traceID_startSpan (samplers : Samplers) (random : ℕ → UInt32) (psc : SpanContext) :
    (startSpan samplers random (some psc)).traceID = psc.traceID := rfl

namespace State

variable {s t : State} {β : Type} {f : SpanContext → β}

/-- Every span has `f` from a root, and the hosts know spans that have been started only. -/
structure Rooted (f : SpanContext → β) (s : State) : Prop where
  root : ∀ x ∈ s.spans, ∃ r ∈ s.roots, f r = f x
  roots : ∀ r ∈ s.roots, r ∈ s.spans
  hosts : ∀ host, (s.hosts host).Among s.spans

theorem rooted_init (f : SpanContext → β) : Rooted f init where
  root := fun _ hx => absurd hx List.not_mem_nil
  roots := fun _ hr => absurd hr List.not_mem_nil
  hosts := fun _ => ⟨held_empty, held_empty⟩

/-- **A parent is a span** that has been started before. -/
theorem Rooted.parent (h : s.Rooted f) {host : ℕ} {source : Source} {psc : SpanContext}
    (hparent : s.parent host source = some (some psc)) : psc ∈ s.spans := by
  cases source with
  | absent => cases hparent
  | header str =>
    rw [State.parent] at hparent
    split_ifs at hparent with hwritten
    obtain ⟨x, hx, rfl⟩ := hwritten
    rw [read_written] at hparent
    exact Option.some.inj (Option.some.inj hparent) ▸ hx
  | goContext data read => exact (h.hosts host).getParentSpanContext (Option.some.inj hparent)

theorem Rooted.setHost (h : s.Rooted f) (host : ℕ) {contexts : Contexts}
    (hcontexts : contexts.Among s.spans) : (s.setHost host contexts).Rooted f := by
  refine ⟨h.root, h.roots, fun host' => ?_⟩
  show (Function.update s.hosts host contexts host').Among s.spans
  by_cases hhost : host' = host
  · subst hhost
    rw [Function.update_self]
    exact hcontexts
  · rw [Function.update_of_ne hhost]
    exact h.hosts host'

/-- A new span has `f` from its parent, if it has one. -/
theorem Rooted.started (h : s.Rooted f) {psc : Option SpanContext} {sc : SpanContext}
    (hpsc : ∀ p, psc = some p → p ∈ s.spans ∧ f p = f sc) : (s.started psc sc).Rooted f := by
  have hold {x : SpanContext} (hx : x ∈ s.spans) : x ∈ (s.started psc sc).spans :=
    List.mem_cons_of_mem sc hx
  have hroots {r : SpanContext} (hr : r ∈ s.roots) : r ∈ (s.started psc sc).roots := by
    cases psc with
    | none => exact List.mem_cons_of_mem sc hr
    | some p => exact hr
  refine ⟨fun x hx => ?_, fun r hr => ?_, fun host => ?_⟩
  · rcases List.mem_cons.mp hx with rfl | hx
    · cases psc with
      | none => exact ⟨x, List.mem_cons_self, rfl⟩
      | some p =>
        obtain ⟨hp, hsame⟩ := hpsc p rfl
        obtain ⟨r, hr, hfp⟩ := h.root p hp
        exact ⟨r, hr, hfp.trans hsame⟩
    · obtain ⟨r, hr, hfx⟩ := h.root x hx
      exact ⟨r, hroots hr, hfx⟩
  · cases psc with
    | none =>
      rcases List.mem_cons.mp hr with rfl | hr
      · exact List.mem_cons_self
      · exact hold (h.roots r hr)
    | some p => exact hold (h.roots r hr)
  · exact ⟨(h.hosts host).goContextToSc.mono fun _ _ => hold,
      (h.hosts host).trackedSpansBySc.mono fun _ _ => hold⟩

end State

/-- What holds of the samplers by which spans are started. -/
def Action.SamplesBy (P : Samplers → Prop) : Action → Prop
  | .start _ samplers _ _ => P samplers
  | .startTracking .. => True
  | .stopTracking .. => True

variable {s t : State} {β : Type} {f : SpanContext → β} {P : Samplers → Prop}

/-- **A step keeps the roots**, for what a span has from its parent. -/
theorem rooted_step
    (hf : ∀ samplers random psc, P samplers → f psc = f (startSpan samplers random (some psc)))
    {a : Action} (h : s.Rooted f) (ha : a.SamplesBy P) (hstep : step s a = some t) :
    t.Rooted f := by
  cases a with
  | start host samplers random source =>
    -- the only step that makes a span
    obtain ⟨psc, hparent, rfl⟩ := Option.map_eq_some_iff.mp hstep
    refine h.started fun p hp => ?_
    subst hp
    exact ⟨h.parent hparent, hf samplers random p ha⟩
  | startTracking host contextContext sc =>
    rw [Tracing.step] at hstep
    split_ifs at hstep with hsc
    obtain rfl := Option.some.inj hstep
    exact h.setHost host ((h.hosts host).startTrackingSpan contextContext hsc)
  | stopTracking host ctxVal parentCtxVal sc psc =>
    obtain rfl := Option.some.inj hstep
    exact h.setHost host ((h.hosts host).stopTrackingSpan ctxVal parentCtxVal sc psc)

theorem rooted_run
    (hf : ∀ samplers random psc, P samplers → f psc = f (startSpan samplers random (some psc)))
    {as : List Action} (has : ∀ a ∈ as, a.SamplesBy P) (hrun : exec step .init as = some s) :
    s.Rooted f :=
  (always_of_along (fun _ _ _ h ha hstep => rooted_step hf h ha hstep) (State.rooted_init f)
    (along_of_forall has State.init)).last hrun

/-! ## Samplers that go by the parent -/

/-- Sampled under a sampled parent, and not sampled under another. -/
def Samplers.FollowsParent (samplers : Samplers) : Prop :=
  ∃ config, samplers.lookup samplers.active = some (.parentBased config) ∧
    samplers.lookup config.localParentSampled = some .alwaysOn ∧
    samplers.lookup config.localParentNotSampled = some .alwaysOff

/-- The sampler that the parent, or its absence, leads to. -/
theorem Samplers.shouldSample_parentBased {samplers : Samplers} {config : ParentBasedConfig}
    {psc : Option SpanContext} {base : SamplingConfig}
    (hactive : samplers.lookup samplers.active = some (.parentBased config))
    (hbase : samplers.lookup (config.samplerID psc) = some base) (traceID : List UInt8) :
    samplers.shouldSample psc traceID = samplers.baseShouldSample traceID base := by
  rw [Samplers.shouldSample, hactive]
  show samplers.parentBasedShouldSample config psc traceID = _
  rw [Samplers.parentBasedShouldSample, hbase]

theorem ParentBasedConfig.samplerID_some (config : ParentBasedConfig) (psc : SpanContext) :
    config.samplerID (some psc) =
      if psc.isSampled then config.localParentSampled else config.localParentNotSampled := rfl

theorem Samplers.FollowsParent.shouldSample {samplers : Samplers} (h : samplers.FollowsParent)
    (psc : SpanContext) (traceID : List UInt8) :
    samplers.shouldSample (some psc) traceID = psc.isSampled := by
  obtain ⟨config, hactive, hon, hoff⟩ := h
  have hid := config.samplerID_some psc
  cases hflag : psc.isSampled with
  | true =>
    rw [hflag, if_pos rfl] at hid
    rw [Samplers.shouldSample_parentBased hactive (hid ▸ hon)]
    rfl
  | false =>
    rw [hflag, if_neg Bool.false_ne_true] at hid
    rw [Samplers.shouldSample_parentBased hactive (hid ▸ hoff)]
    rfl

theorem Samplers.FollowsParent.traceFlags {samplers : Samplers} (h : samplers.FollowsParent)
    (random : ℕ → UInt32) (psc : SpanContext) :
    (startSpan samplers random (some psc)).traceFlags = psc.traceFlags := by
  rw [traceFlags_startSpan, h.shouldSample]
  exact (sampledBit psc.traceFlags).2.2

/-- **A trace is sampled as a whole** or not at all, wherever its spans are started and whatever order
they come and go in: if every sampler follows the parent, each span is in the trace of a root and has
its flags, and the spans of one trace agree on them unless two roots have drawn the same trace. -/
theorem traces_whole {as : List Action} (hrun : exec step .init as = some s)
    (has : ∀ a ∈ as, a.SamplesBy Samplers.FollowsParent) :
    (∀ x ∈ s.spans, ∃ r ∈ s.roots, r.traceID = x.traceID ∧ r.traceFlags = x.traceFlags) ∧
    ((s.roots.map SpanContext.traceID).Nodup → ∀ x ∈ s.spans, ∀ y ∈ s.spans,
      x.traceID = y.traceID → x.traceFlags = y.traceFlags) := by
  have hrooted : s.Rooted fun x => (x.traceID, x.traceFlags) := by
    refine rooted_run (fun samplers random psc h => ?_) has hrun
    rw [traceID_startSpan, h.traceFlags]
  have hroot {x : SpanContext} (hx : x ∈ s.spans) :
      ∃ r ∈ s.roots, r.traceID = x.traceID ∧ r.traceFlags = x.traceFlags := by
    obtain ⟨r, hr, hsame⟩ := hrooted.root x hx
    exact ⟨r, hr, Prod.mk.inj hsame⟩
  refine ⟨fun x hx => hroot hx, fun hdistinct x hx y hy hxy => ?_⟩
  obtain ⟨r, hr, hid, hflags⟩ := hroot hx
  obtain ⟨r', hr', hid', hflags'⟩ := hroot hy
  have hroots : r = r' := List.inj_on_of_nodup_map hdistinct hr hr' (by rw [hid, hid', hxy])
  rw [← hflags, ← hflags', hroots]

/-- Samplers that start by a rate and go on by the parent. -/
def usualSamplers (littleEndian : Bool) : Samplers where
  littleEndian
  configs i :=
    if i.val = 0 then .alwaysOn
    else if i.val = 1 then .alwaysOff
    else if i.val = 2 then .traceIDRatio 7
    else .parentBased ⟨2, 0, 1, 0, 1⟩
  active := 3

/-- A request that goes through two hosts: a root, which is tracked, a child of its context, and a
child of the header that the root has sent. -/
def twoHosts : List Action :=
  let root := startSpan (usualSamplers true) (fun i => .ofNat i) none
  [.start 0 (usualSamplers true) (fun i => .ofNat i) .absent, .startTracking 0 64 root,
    .start 0 (usualSamplers true) (fun _ => 9) (.goContext 32 fun data => data + 32),
    .start 1 (usualSamplers true) (fun _ => 11) (.header (spanContextToW3cString root)),
    .stopTracking 0 0 0 root none]

theorem twoHosts_run : (exec step .init twoHosts).isSome := by
  decide +kernel

theorem twoHosts_samplesBy {P : Samplers → Prop} (hP : P (usualSamplers true)) :
    ∀ a ∈ twoHosts, a.SamplesBy P := by
  intro a ha
  simp only [twoHosts, List.mem_cons, List.not_mem_nil, or_false] at ha
  rcases ha with rfl | rfl | rfl | rfl | rfl
  · exact hP
  · trivial
  · exact hP
  · exact hP
  · trivial

theorem traces_whole_twoHosts :
    let s := (exec step .init twoHosts).get twoHosts_run
    (∀ x ∈ s.spans, ∃ r ∈ s.roots, r.traceID = x.traceID ∧ r.traceFlags = x.traceFlags) ∧
    ((s.roots.map SpanContext.traceID).Nodup → ∀ x ∈ s.spans, ∀ y ∈ s.spans,
      x.traceID = y.traceID → x.traceFlags = y.traceFlags) :=
  traces_whole (Option.some_get twoHosts_run).symm
    (twoHosts_samplesBy ⟨⟨2, 0, 1, 0, 1⟩, rfl, rfl, rfl⟩)

/-! ## Samplers that go by the trace -/

/-- The number in the second half of a trace. -/
def traceNumber (littleEndian : Bool) (traceID : List UInt8) : ℕ :=
  let bytes := (traceID.drop 8).take 8
  Nat.ofDigits 256 ((if littleEndian then bytes else bytes.reverse).map UInt8.toNat)

/-- The numbers below this one are sampled. -/
def threshold (samplingRateNumerator : UInt64) : ℕ :=
  if samplingRateNumerator ≥ samplingRateDenominator then 2 ^ 64
  else 2 ^ 32 * samplingRateNumerator.toNat

theorem toNat_foldl (bytes : List UInt8) {v : UInt64} {k : ℕ} (hv : v.toNat < 256 ^ k)
    (hk : k + bytes.length ≤ 8) :
    (bytes.foldl (fun (v : UInt64) (b : UInt8) => v <<< 8 ||| b.toUInt64) v).toNat =
      v.toNat * 256 ^ bytes.length + Nat.ofDigits 256 (bytes.reverse.map UInt8.toNat) := by
  induction bytes generalizing v k with
  | nil => simp only [List.foldl_nil, List.length_nil, pow_zero, List.reverse_nil, List.map_nil,
      Nat.ofDigits_nil, Nat.mul_one, Nat.add_zero]
  | cons b bytes ih =>
    have hb : b.toNat < 2 ^ 8 := b.toNat_lt
    have hlength : k + 1 + bytes.length ≤ 8 := by
      rw [List.length_cons] at hk
      omega
    have hpow : 256 ^ (k + 1) ≤ 2 ^ 64 := by
      rw [show (2 : ℕ) ^ 64 = 256 ^ 8 by norm_num]
      exact Nat.pow_le_pow_right (by omega) (by omega)
    have hshifted : v.toNat * 256 + b.toNat < 256 ^ (k + 1) := by
      rw [pow_succ]
      omega
    have hfits : v.toNat * 2 ^ 8 < 2 ^ 64 :=
      lt_of_le_of_lt (Nat.le_add_right _ b.toNat) (hshifted.trans_le hpow)
    have hstep : (v <<< 8 ||| b.toUInt64).toNat = v.toNat * 256 + b.toNat := by
      rw [UInt64.toNat_or, UInt64.toNat_shiftLeft, UInt8.toNat_toUInt64,
        show (8 : UInt64).toNat % 64 = 8 from rfl, Nat.shiftLeft_eq, Nat.mod_eq_of_lt hfits,
        Nat.mul_comm, ← Nat.two_pow_add_eq_or_of_lt hb, Nat.mul_comm]
    rw [List.foldl_cons, ih (v := v <<< 8 ||| b.toUInt64) (hstep ▸ hshifted) hlength, hstep,
      List.reverse_cons, List.map_append, Nat.ofDigits_append, List.length_map,
      List.length_reverse, List.length_cons, pow_succ]
    simp only [List.map_cons, List.map_nil, Nat.ofDigits_singleton]
    ring

theorem toNat_wordOf (littleEndian : Bool) (traceID : List UInt8) :
    (wordOf littleEndian ((traceID.drop 8).take 8)).toNat = traceNumber littleEndian traceID := by
  have hlength : ((traceID.drop 8).take 8).length ≤ 8 := List.length_take_le 8 _
  rw [wordOf, traceNumber]
  cases littleEndian with
  | true =>
    have h := toNat_foldl ((traceID.drop 8).take 8).reverse (v := 0) (k := 0) (by decide)
      (by rw [List.length_reverse]; omega)
    simpa using h
  | false =>
    have h := toNat_foldl ((traceID.drop 8).take 8) (v := 0) (k := 0) (by decide) (by omega)
    simpa using h

/-- **The rate** is a threshold. -/
theorem ratio_iff (samplingRateNumerator traceIDNum : UInt64) :
    ratio samplingRateNumerator traceIDNum = true ↔
      traceIDNum.toNat < threshold samplingRateNumerator := by
  have hnum := traceIDNum.toNat_lt
  rw [ratio, threshold]
  split_ifs with hzero hone hall
  · subst hzero
    cases hone
  · subst hzero
    simp
  · exact ⟨fun _ => hnum, fun _ => rfl⟩
  · have hlt : samplingRateNumerator < samplingRateDenominator := UInt64.not_le.mp hall
    have hn : samplingRateNumerator.toNat < 4294967295 := UInt64.lt_iff_toNat_lt.mp hlt
    have hbound : (((1 : UInt64) <<< 63 / samplingRateDenominator) * samplingRateNumerator).toNat =
        2147483648 * samplingRateNumerator.toNat := by
      rw [UInt64.toNat_mul, show ((1 : UInt64) <<< 63 / samplingRateDenominator).toNat = 2147483648
        by decide, Nat.mod_eq_of_lt (by omega)]
    rw [decide_eq_true_iff, UInt64.lt_iff_toNat_lt, hbound, UInt64.toNat_shiftRight]
    simp only [UInt64.reduceToNat, Nat.reduceMod, Nat.shiftRight_eq_div_pow]
    omega

/-- The rate decides, under a parent too, or the parent does that has been judged by it. -/
def Samplers.ByRate (littleEndian : Bool) (numerator : UInt64) (samplers : Samplers) : Prop :=
  samplers.littleEndian = littleEndian ∧
    (samplers.lookup samplers.active = some (.traceIDRatio numerator) ∨
    ∃ config, samplers.lookup samplers.active = some (.parentBased config) ∧
      samplers.lookup config.root = some (.traceIDRatio numerator) ∧
      (samplers.lookup config.localParentSampled = some .alwaysOn ∨
        samplers.lookup config.localParentSampled = some (.traceIDRatio numerator)) ∧
      (samplers.lookup config.localParentNotSampled = some .alwaysOff ∨
        samplers.lookup config.localParentNotSampled = some (.traceIDRatio numerator)))

/-- The decision on a trace. -/
def byRate (littleEndian : Bool) (numerator : UInt64) (traceID : List UInt8) : Bool :=
  ratio numerator (wordOf littleEndian ((traceID.drop 8).take 8))

/-- **One decision** for a trace, if it is the one the parent has met with. -/
theorem Samplers.ByRate.shouldSample {samplers : Samplers} {littleEndian : Bool}
    {numerator : UInt64} (h : samplers.ByRate littleEndian numerator) {psc : Option SpanContext}
    {traceID : List UInt8}
    (hpsc : ∀ p, psc = some p → p.isSampled = byRate littleEndian numerator traceID) :
    samplers.shouldSample psc traceID = byRate littleEndian numerator traceID := by
  obtain ⟨rfl, hactive⟩ := h
  have hrate : samplers.baseShouldSample traceID (.traceIDRatio numerator) =
      byRate samplers.littleEndian numerator traceID := rfl
  rcases hactive with hactive | ⟨config, hactive, hroot, hsampled, hnot⟩
  · rw [Samplers.shouldSample, hactive]
    exact hrate
  · cases psc with
    | none =>
      refine (Samplers.shouldSample_parentBased hactive ?_ traceID).trans hrate
      exact hroot
    | some p =>
      have hp := hpsc p rfl
      have hid := config.samplerID_some p
      cases hflag : p.isSampled with
      | true =>
        -- always on agrees with the rate, since the parent has met with it
        rw [hflag, if_pos rfl] at hid
        rcases hsampled with hsampled | hsampled
        · rw [Samplers.shouldSample_parentBased hactive (hid ▸ hsampled), ← hp, hflag]
          rfl
        · rw [Samplers.shouldSample_parentBased hactive (hid ▸ hsampled)]
          exact hrate
      | false =>
        rw [hflag, if_neg Bool.false_ne_true] at hid
        rcases hnot with hnot | hnot
        · rw [Samplers.shouldSample_parentBased hactive (hid ▸ hnot), ← hp, hflag]
          rfl
        · rw [Samplers.shouldSample_parentBased hactive (hid ▸ hnot)]
          exact hrate

/-- What has been decided. -/
structure Judged (littleEndian : Bool) (numerator : UInt64) (s : State) : Prop where
  rooted : s.Rooted SpanContext.traceID
  judged : ∀ x ∈ s.spans, x.isSampled = byRate littleEndian numerator x.traceID

theorem judged_step {littleEndian : Bool} {numerator : UInt64} {a : Action}
    (h : Judged littleEndian numerator s)
    (ha : a.SamplesBy (Samplers.ByRate littleEndian numerator)) (hstep : step s a = some t) :
    Judged littleEndian numerator t := by
  refine ⟨rooted_step (fun _ _ _ _ => rfl) h.rooted ha hstep, ?_⟩
  cases a with
  | start host samplers random source =>
    obtain ⟨psc, hparent, rfl⟩ := Option.map_eq_some_iff.mp hstep
    intro x hx
    rcases List.mem_cons.mp hx with rfl | hx
    · rw [isSampled_startSpan]
      refine Samplers.ByRate.shouldSample ha fun p hp => ?_
      -- a child is in the trace of its parent, which has been judged
      subst hp
      exact h.judged p (h.rooted.parent hparent)
    · exact h.judged x hx
  | startTracking host contextContext sc =>
    rw [step] at hstep
    split_ifs at hstep
    obtain rfl := Option.some.inj hstep
    exact h.judged
  | stopTracking host ctxVal parentCtxVal sc psc =>
    obtain rfl := Option.some.inj hstep
    exact h.judged

/-- **A rate samples traces**, not spans: where every host has the same rate and the same byte order,
a span is recorded if and only if the number in its trace is below the threshold for the rate, whether
the host judges the trace itself or goes by a parent. -/
theorem traces_by_rate {littleEndian : Bool} {numerator : UInt64} {as : List Action}
    (hrun : exec step .init as = some s)
    (has : ∀ a ∈ as, a.SamplesBy (Samplers.ByRate littleEndian numerator)) :
    ∀ x ∈ s.spans, x.isSampled ↔ traceNumber littleEndian x.traceID < threshold numerator := by
  have hinit : Judged littleEndian numerator .init :=
    ⟨State.rooted_init _, fun _ hx => absurd hx List.not_mem_nil⟩
  have hjudged := (always_of_along (fun _ _ _ h ha hstep => judged_step h ha hstep) hinit
    (along_of_forall has State.init)).last hrun
  intro x hx
  rw [hjudged.judged x hx, byRate, ratio_iff, toNat_wordOf]

theorem traces_by_rate_twoHosts :
    let s := (exec step .init twoHosts).get twoHosts_run
    s.spans.length = 3 ∧
      ∀ x ∈ s.spans, x.isSampled ↔ traceNumber true x.traceID < threshold 7 :=
  ⟨by decide +kernel,
    traces_by_rate (Option.some_get twoHosts_run).symm
      (twoHosts_samplesBy ⟨rfl, .inr ⟨⟨2, 0, 1, 0, 1⟩, rfl, rfl, .inl rfl, .inl rfl⟩⟩)⟩

end Accumulation.Tracing
