import Slipstream.Engine.Impl.Failover

/-!
This module contains the safety of the wire failover loop: for which host configurations it neither
panics nor stays on a collapsed endpoint, whatever the probes read and whenever the wire collapses.
-/

namespace Slipstream

namespace Probe

theorem rank.go_lt {bestTip : UInt64} {results : List ProbeResult} {i : Nat}
    {chosen : Option (Nat × Float)} (hchosen : ∀ c, chosen = some c → c.1 < i)
    (h : go bestTip results i chosen = some res)
    : res.1 < i + results.length := by
  fun_induction go bestTip results i chosen with
  | case1 i chosen => exact hchosen _ h
  | case2 i chosen r rs htip ih =>
    have := ih (fun c hc => Nat.lt_succ_of_lt (hchosen c hc)) h
    rw [List.length_cons]
    omega
  | case3 i chosen r rs tip htip hstale ih =>
    have := ih (fun c hc => Nat.lt_succ_of_lt (hchosen c hc)) h
    rw [List.length_cons]
    omega
  | case4 i r rs tip htip hfresh best bestRate rate hrate ih =>
    have := ih (fun c hc => Nat.lt_succ_of_lt (hchosen c hc)) h
    rw [List.length_cons]
    omega
  | case5 i r rs tip htip hfresh best bestRate rate hrate ih =>
    have := ih (by rintro c ⟨rfl⟩; exact Nat.lt_succ_self _) h
    rw [List.length_cons]
    omega
  | case6 i r rs tip htip hfresh rate ih =>
    have := ih (by rintro c ⟨rfl⟩; exact Nat.lt_succ_self _) h
    rw [List.length_cons]
    omega

theorem rank_lt {results : List ProbeResult} (hne : results ≠ [])
    : rank results < results.length := by
  have hpos := List.length_pos_iff.mpr hne
  unfold rank
  split
  . exact hpos
  . split
    . exact hpos
    . next h =>
      have := rank.go_lt (by simp) h
      simpa using this

theorem probeEndpoints_lt {endpoints : List Endpoint} (hne : endpoints ≠ [])
    (readouts : Nat → Readout) : probeEndpoints endpoints readouts < endpoints.length := by
  unfold probeEndpoints
  generalize hres : endpoints.mapIdx _ = results
  have hlen : results.length = endpoints.length := by simp [← hres]
  rw [← hlen]
  apply rank_lt
  rwa [← List.length_pos_iff, hlen, List.length_pos_iff]

theorem rank.go_unreachable {bestTip : UInt64} {results : List ProbeResult}
    (h : ∀ r ∈ results, r.tip = none) (i : Nat) (chosen : Option (Nat × Float))
    : go bestTip results i chosen = chosen := by
  induction results generalizing i with
  | nil => rfl
  | cons r rs ih =>
    have hr : r.tip = none := h r (by simp)
    rw [go, hr]
    exact ih (fun r hr => h r (by simp [hr])) (i + 1)

theorem rank_second {r₀ r₁ : ProbeResult} {rs : List ProbeResult} (h₀ : r₀.tip = none)
    (h₁ : r₁.tip = some 0) (hs : ∀ r ∈ rs, r.tip = none)
    : rank (r₀ :: r₁ :: rs) = 1 := by
  have htips : rs.filterMap ProbeResult.tip = [] := List.filterMap_eq_nil_iff.mpr hs
  simp [rank, rank.go, h₀, h₁, htips, rank.go_unreachable hs, TIP_FRESHNESS_SLACK]

def onlyFirstAlternate (i : Nat) : Readout where
  tip := if i = 1 then some 0 else none
  sampleMbps := none

theorem probeEndpoints_onlyFirstAlternate (primary alternate : Endpoint) (rest : List Endpoint)
    : probeEndpoints (primary :: alternate :: rest) onlyFirstAlternate = 1 := by
  unfold probeEndpoints
  rw [List.mapIdx_cons, List.mapIdx_cons]
  apply rank_second rfl rfl
  intro r hr
  obtain ⟨i, hi, rfl⟩ := List.mem_mapIdx.mp hr
  simp [onlyFirstAlternate]

end Probe

namespace Failover

def pool (config : EngineConfig) : List Endpoint := config.endpoint :: config.alternateEndpoints

theorem pickNext_isSome {from_ : List Endpoint} (hne : from_ ≠ []) (readouts : Nat → Probe.Readout)
    : ∃ e ∈ from_, pickNext from_ readouts = some e := by
  have hlt := Probe.probeEndpoints_lt hne readouts
  have hpos := List.length_pos_iff.mpr hne
  unfold pickNext swapRemove
  split
  . exact ⟨from_[0], List.getElem_mem hpos, List.getElem?_eq_getElem hpos⟩
  . exact ⟨_, List.getElem_mem hlt, List.getElem?_eq_getElem hlt⟩

theorem mem_candidates (h : e ∈ (candidates config st).1)
    : e ∈ pool config ∧ e ≠ st.endpoint := by
  unfold candidates at h
  dsimp at h
  split at h
  . simpa [pool, List.mem_filter] using h
  . have : e ∈ pool config ∧ e ∉ st.cooled ∧ e ≠ st.endpoint := by
      simpa [pool, List.mem_filter, not_or] using h
    exact ⟨this.1, this.2.2⟩

theorem candidates_eq_nil_iff (config : EngineConfig) (st : LoopState)
    : (candidates config st).1 = [] ↔ ∀ e ∈ pool config, e = st.endpoint := by
  unfold candidates
  dsimp
  split
  . simp [pool, List.filter_eq_nil_iff]
  . next hfresh =>
    constructor
    . intro hnil
      exact absurd (by simpa using hnil) hfresh
    . intro hall
      rw [List.filter_eq_nil_iff]
      intro e he
      simp [hall e he]

theorem failover_cases (config : EngineConfig) (st : LoopState) (readouts : Nat → Probe.Readout)
    : (failover config st readouts = none ∧ ∀ e ∈ pool config, e = st.endpoint)
      ∨ ∃ st', failover config st readouts = some st'
        ∧ st'.endpoint ∈ pool config ∧ st'.endpoint ≠ st.endpoint
        ∧ st'.wireSwitches = st.wireSwitches + 1
        ∧ st'.wireFailover
          = if st.wireSwitches + 1 ≥ MAX_WIRE_SWITCHES then false else st.wireFailover := by
  unfold failover
  dsimp
  by_cases hnil : (candidates config st).1 = []
  . left
    refine ⟨?_, (candidates_eq_nil_iff config st).mp hnil⟩
    rw [hnil]
    rfl
  . right
    obtain ⟨e, he, hpick⟩ := pickNext_isSome hnil readouts
    rw [hpick]
    have := mem_candidates he
    exact ⟨_, rfl, this.1, this.2, rfl, rfl⟩

theorem loop_unarmed (hst : armed config st = false) (hfuel : 0 < fuel)
    : loop config world fuel st = ([], st, some .finished) := by
  obtain ⟨fuel, rfl⟩ : ∃ k, fuel = k + 1 := ⟨fuel - 1, by omega⟩
  simp [loop, hst]

theorem loop_spec (hother : ∀ e, ∃ e' ∈ pool config, e' ≠ e)
    (hbudget : st.wireFailover = true → st.wireSwitches < MAX_WIRE_SWITCHES)
    (hfuel : MAX_WIRE_SWITCHES - st.wireSwitches < fuel)
    (hres : loop config world fuel st = (switches, last, ending))
    : ending = some .finished
      ∧ (∀ s ∈ switches, s.next ∈ pool config ∧ s.next ≠ s.collapsed)
      ∧ last.wireSwitches = st.wireSwitches + switches.length
      ∧ (last.wireFailover = true → last.wireSwitches < MAX_WIRE_SWITCHES)
      ∧ (switches ≠ [] → last.wireSwitches ≤ MAX_WIRE_SWITCHES) := by
  induction fuel generalizing st switches last ending with
  | zero => omega
  | succ fuel ih =>
    rw [loop] at hres
    split at hres
    . next harmed =>
      have hon : st.wireFailover = true := by
        simp only [armed, Bool.and_eq_true] at harmed
        exact harmed.1.1
      have hlt := hbudget hon
      rcases failover_cases config st (world.reprobe st.wireSwitches) with
        ⟨-, hsame⟩ | ⟨st', hst', hmem, hne, hcount, harm⟩
      . obtain ⟨e, he, hne⟩ := hother st.endpoint
        exact absurd (hsame e he) hne
      . rw [hst'] at hres
        dsimp at hres
        generalize hrest : loop config world fuel st' = rest at hres
        obtain ⟨switches', last', ending'⟩ := rest
        cases hres
        have hbudget' : st'.wireFailover = true → st'.wireSwitches < MAX_WIRE_SWITCHES := by
          intro hon'
          rw [harm] at hon'
          split at hon'
          . cases hon'
          . omega
        obtain ⟨hend, hall, hlast, hoff, hmax⟩ := ih hbudget' (by omega) hrest
        refine ⟨hend, ?_, ?_, hoff, ?_⟩
        . intro s hs
          rw [List.mem_cons] at hs
          rcases hs with rfl | hs
          . exact ⟨hmem, hne⟩
          . exact hall s hs
        . rw [hlast, hcount]
          dsimp
          omega
        . intro _
          by_cases hnil : switches' = []
          . subst hnil
            rw [hlast, hcount]
            exact hlt
          . exact hmax hnil
    . cases hres
      exact ⟨rfl, by simp, by simp, hbudget, by simp⟩

structure Safe (host : EngineConfig) (res : List Switch × Option Ending × Bool) : Prop where
  finished : res.2.1 = some .finished
  configured : ∀ s ∈ res.1, s.next ∈ pool host
  moved : ∀ s ∈ res.1, (∃ e ∈ pool host, e ≠ s.collapsed) → s.next ≠ s.collapsed
  budget : res.1.length ≤ MAX_WIRE_SWITCHES
  disarmed : res.1.length = MAX_WIRE_SWITCHES → res.2.2 = false

theorem withSelectedEndpoint_spec (host : EngineConfig) (viaTor : Bool)
    (readouts : Nat → Probe.Readout)
    : ∃ e ∈ pool host,
        host.withSelectedEndpoint viaTor readouts = some { host with endpoint := e } := by
  unfold EngineConfig.withSelectedEndpoint
  split
  . exact ⟨host.endpoint, by simp [pool], rfl⟩
  . have hlt := Probe.probeEndpoints_lt (List.cons_ne_nil host.endpoint host.alternateEndpoints)
      readouts
    refine ⟨_, List.getElem_mem hlt, ?_⟩
    dsimp only [swapRemove]
    rw [List.getElem?_eq_getElem hlt]

theorem syncOnce_eq (hcommit : host.withSelectedEndpoint viaTor opening = some config)
    (hres : loop config world fuel (initial config viaTor) = (switches, last, ending))
    : syncOnce host viaTor opening world fuel = (switches, ending, last.wireFailover) := by
  simp [syncOnce, hcommit, hres]

theorem safe_of_unarmed (host : EngineConfig) (viaTor : Bool) (opening : Nat → Probe.Readout)
    (world : World) (hfuel : 0 < fuel)
    (hoff : host.alternateEndpoints = [] ∨ viaTor = true ∨ host.wireFailover = false)
    : Safe host (syncOnce host viaTor opening world fuel) := by
  obtain ⟨e, -, hcommit⟩ := withSelectedEndpoint_spec host viaTor opening
  have hunarmed : armed { host with endpoint := e } (initial { host with endpoint := e } viaTor)
      = false := by
    rcases hoff with h | h | h
    all_goals simp [armed, initial, h]
  rw [syncOnce_eq hcommit (loop_unarmed hunarmed hfuel)]
  constructor
  all_goals simp [MAX_WIRE_SWITCHES]

theorem safe_of_two_alternates (host : EngineConfig) (viaTor : Bool)
    (opening : Nat → Probe.Readout) (world : World) (hfuel : MAX_WIRE_SWITCHES < fuel)
    (ha : a ∈ host.alternateEndpoints) (hb : b ∈ host.alternateEndpoints) (hab : a ≠ b)
    : Safe host (syncOnce host viaTor opening world fuel) := by
  obtain ⟨e, he, hcommit⟩ := withSelectedEndpoint_spec host viaTor opening
  generalize hres : loop { host with endpoint := e } world fuel
    (initial { host with endpoint := e } viaTor) = res
  obtain ⟨switches, last, ending⟩ := res
  have hother : ∀ x, ∃ y ∈ pool { host with endpoint := e }, y ≠ x := by
    intro x
    by_cases hx : a = x
    . exact ⟨b, by simp [pool, hb], fun hbx => hab (hx.trans hbx.symm)⟩
    . exact ⟨a, by simp [pool, ha], hx⟩
  have hsub : ∀ x ∈ pool { host with endpoint := e }, x ∈ pool host := by
    intro x hx
    simp only [pool, List.mem_cons] at hx ⊢
    rcases hx with rfl | hx
    . simpa [pool] using he
    . exact Or.inr hx
  obtain ⟨hend, hall, hlast, hoff, hmax⟩ := loop_spec hother (by simp [initial, MAX_WIRE_SWITCHES])
    (by simpa [initial] using hfuel) hres
  rw [syncOnce_eq hcommit hres]
  dsimp [initial] at hlast
  constructor
  case finished => exact hend
  case configured => exact fun s hs => hsub _ (hall s hs).1
  case moved => exact fun s hs _ => (hall s hs).2
  case budget =>
    dsimp
    by_cases hnil : switches = []
    . simp [hnil]
    . have := hmax hnil
      omega
  case disarmed =>
    intro hlen
    dsimp at hlen ⊢
    rw [← Bool.not_eq_true]
    intro hon
    have := hoff hon
    omega

def allCollapse (readouts : Nat → Probe.Readout) : World where
  collapses _ := true
  reprobe _ := readouts

theorem syncOnce_panics (host : EngineConfig) (halt : host.alternateEndpoints = a :: rest)
    (hsame : ∀ b ∈ rest, b = a) (hon : host.wireFailover = true)
    : (syncOnce host false Probe.onlyFirstAlternate
        (allCollapse Probe.onlyFirstAlternate) (fuel + 1)).2.1
      = some .panicked := by
  have hcommit : host.withSelectedEndpoint false Probe.onlyFirstAlternate
      = some { host with endpoint := a } := by
    simp [EngineConfig.withSelectedEndpoint, halt, Probe.probeEndpoints_onlyFirstAlternate,
      swapRemove]
  have hall : ∀ e ∈ pool { host with endpoint := a }, e = a := by
    intro e he
    simp only [pool, halt, List.mem_cons] at he
    rcases he with rfl | rfl | he
    . rfl
    . rfl
    . exact hsame e he
  have hstuck : failover { host with endpoint := a } (initial { host with endpoint := a } false)
      Probe.onlyFirstAlternate = none := by
    rcases failover_cases { host with endpoint := a } (initial { host with endpoint := a } false)
      Probe.onlyFirstAlternate with ⟨hnone, -⟩ | ⟨st', -, hmem, hne, -, -⟩
    . exact hnone
    . exact absurd (hall _ hmem) hne
  have hloop : loop { host with endpoint := a } (allCollapse Probe.onlyFirstAlternate) (fuel + 1)
      (initial { host with endpoint := a } false)
      = ([], initial { host with endpoint := a } false, some .panicked) := by
    have harmed : armed { host with endpoint := a } (initial { host with endpoint := a } false)
        = true := by
      simp [armed, initial, hon, halt]
    rw [loop]
    simp only [harmed, allCollapse, Bool.and_self, if_true, hstuck]
  rw [syncOnce_eq hcommit hloop]

/--
The failover is safe for every behaviour of servers and wire exactly when it can never be armed or
the alternates hold two different endpoints: the committed winner takes the primary's place in the
pool, so a single alternate that wins is all the pool has left.
-/
theorem safe_iff_two_alternates (host : EngineConfig) (viaTor : Bool)
    : (∀ opening world fuel, MAX_WIRE_SWITCHES < fuel →
        Safe host (syncOnce host viaTor opening world fuel))
      ↔
      host.alternateEndpoints = [] ∨ viaTor = true ∨ host.wireFailover = false
        ∨ ∃ a ∈ host.alternateEndpoints, ∃ b ∈ host.alternateEndpoints, a ≠ b := by
  constructor
  . intro hsafe
    by_contra hcontra
    simp only [not_or, Bool.not_eq_true, Bool.not_eq_false] at hcontra
    obtain ⟨hne, htor, hon, hnone⟩ := hcontra
    obtain ⟨a, rest, halt⟩ := List.exists_cons_of_ne_nil hne
    have hsame : ∀ b ∈ rest, b = a := by
      intro b hb
      by_contra hba
      exact hnone ⟨b, by simp [halt, hb], a, by simp [halt], hba⟩
    subst htor
    have hfinished := (hsafe Probe.onlyFirstAlternate (allCollapse Probe.onlyFirstAlternate)
      (MAX_WIRE_SWITCHES + 1) (Nat.lt_succ_self _)).finished
    rw [syncOnce_panics host halt hsame hon] at hfinished
    cases hfinished
  . rintro (hoff | hoff | hoff | ⟨a, ha, b, hb, hab⟩) opening world fuel hfuel
    . exact safe_of_unarmed host viaTor opening world (by omega) (Or.inl hoff)
    . exact safe_of_unarmed host viaTor opening world (by omega) (Or.inr (Or.inl hoff))
    . exact safe_of_unarmed host viaTor opening world (by omega) (Or.inr (Or.inr hoff))
    . exact safe_of_two_alternates host viaTor opening world hfuel ha hb hab

def soleAlternate : EngineConfig where
  endpoint := { host := "primary", port := 443, tls := true }
  alternateEndpoints := [{ host := "alternate", port := 443, tls := true }]
  wireFailover := true

theorem soleAlternate_panics
    : syncOnce soleAlternate false Probe.onlyFirstAlternate
        (allCollapse Probe.onlyFirstAlternate) 3
      = ([], some .panicked, true)
      ∧ ¬Safe soleAlternate (syncOnce soleAlternate false Probe.onlyFirstAlternate
          (allCollapse Probe.onlyFirstAlternate) 3) := by
  have hpanic : syncOnce soleAlternate false Probe.onlyFirstAlternate
      (allCollapse Probe.onlyFirstAlternate) 3 = ([], some .panicked, true) := by
    rfl
  refine ⟨hpanic, ?_⟩
  intro hsafe
  have := hsafe.finished
  rw [hpanic] at this
  cases this

end Failover
end Slipstream
