import Tessera.Proofs.Residency
import Tessera.Proofs.Totality

/-!
# The planner and the check agree

Whatever is planned for a shaped program passes the check of schedules; and where nothing
can be planned, the planner says so.

* `steps_proper`: the steps of every path are proper.
* `plan_refuses`: nothing that is planned faults or fails to end.
* `plan_validates`: a plan is checked, or there is a diagnosis.
-/

namespace Tessera

section Plan

variable {p : Planner} {d : Shaped} {pr : Program} {c : Config} {b xr xc : Nat}

/-- **The steps of every path are proper.** -/
theorem steps_proper {path : Path} {overflow : Bool} {steps : List Step} (hb : 1 ≤ b)
    (hcommon : d.Common pr c b xr xc) (hformed : d.Formed c b xr xc) (hcaps : p.caps.Within b)
    (hdata : p.data = d) (hcounts : p.counts = d.counts)
    (hresults : p.results = Std.TreeSet.ofList d.storeBlocks)
    (h : p.steps = .ok (path, overflow, steps)) : ∀ st ∈ steps, st.Proper d p.caps := by
  cases hformed with
  | product ac a w hprod =>
    exact product_proper hb hcommon hprod hcaps hdata hcounts hresults h
  | multiple scalar a w factor hmul =>
    obtain ⟨-, -, hsteps⟩ := (Planner.steps_multiple (by rw [hdata, hmul.form])).1 h
    exact constant_proper hb hcommon hmul hcaps hdata hcounts hresults hsteps
  | plain hplain =>
    have h := (Planner.steps_operations (by rw [hdata, hplain.form])).1 h
    split at h
    · rename_i hfits
      obtain ⟨-, -, rfl⟩ := h
      exact aluFit_proper hb hcommon hcaps hdata hcounts hresults hfits
    · exact aluOverflow_proper hb hcommon hplain hcaps hdata h.2.2
  | sum y hsum =>
    obtain ⟨-, -, hsteps⟩ := (Planner.steps_sum (by rw [hdata, hsum.form])).1 h
    exact add_proper hb hcommon hsum hcaps hdata hcounts hresults hsteps

end Plan

/-- What is planned for a shaped program: proper steps, with their stores on record. -/
theorem plan_proper {p : Program} {c : Config} {d : Shaped} {caps : Capacities}
    {options : PlanOptions} {s : Schedule} {b xr xc : Nat} (hb : 1 ≤ b)
    (hcommon : d.Common p c b xr xc) (hformed : d.Formed c b xr xc) (hcaps : caps.Within b)
    (h : plan d caps options = .ok s) :
    ∃ steps, s.steps = recordStores steps ∧ (∀ st ∈ steps, st.Proper d caps) ∧ s.b = d.b ∧
      s.nX = d.counts.nX ∧ s.caps = caps := by
  obtain ⟨strategy, steps, hplanned⟩ := plan_planned h
  exact ⟨steps, hplanned.recorded, steps_proper hb hcommon hformed hcaps rfl rfl rfl hplanned.planned,
    hplanned.side, hplanned.blocks, hplanned.capacities⟩

/-- The scratchpads that a program was shaped for. -/
theorem build_within {p : Program} {c : Config} {d : Shaped} {caps : Capacities} {b : Nat}
    (hbuild : Shaped.build p c = .ok d) (hsound : c.Sound b)
    (hcaps : c.schedulingCapacities = .ok caps) : caps.Within b := by
  unfold Shaped.build at hbuild
  obtain ⟨⟨⟩, hvalid, -⟩ := Outcome.bind_eq_ok.1 hbuild
  obtain ⟨b', hsound', caps', hcaps', hwithin⟩ := Config.validate_sound hvalid
  have hb := hsound.block
  rw [hsound'.block] at hb
  rw [hcaps] at hcaps'
  obtain rfl := Except.ok.inj hcaps'
  obtain rfl : b' = b := by simpa using hb
  exact hwithin

/-- A plan is a schedule or a diagnosis. -/
theorem plan_refuses {p : Program} {c : Config} {d : Shaped} {caps : Capacities} {b xr xc : Nat}
    (options : PlanOptions) (hb : 1 ≤ b) (hcommon : d.Common p c b xr xc)
    (hformed : d.Formed c b xr xc) (hcaps : caps.Within b) :
    (plan d caps options).OnlyRefuses fun _ => True := by
  obtain ⟨hinp, hwgt, hacc⟩ := hcaps.small hb
  refine plan_ends hb hcommon hformed ⟨by omega, by omega, by omega⟩ fun strategy _ hstalls => ?_
  -- the output scratchpad is as large as the accumulator's
  have hout : caps.out ≤ 0 := hstalls.out
  have := hcaps.out
  omega

/-- **The planner and the check agree.** For a shaped program and the scratchpads it was
shaped for, whatever way is chosen, there is a schedule or a diagnosis. A schedule passes
the check: its steps are proper, and each has on record what was stored up to it. -/
theorem plan_validates {p : Program} {c : Config} {d : Shaped} {caps : Capacities}
    (hword : p.WordSized) (hbuild : Shaped.build p c = .ok d)
    (hcaps : c.schedulingCapacities = .ok caps) (options : PlanOptions) :
    (∃ object detail, plan d caps options = Outcome.diagnose object detail) ∨
      ∃ s, plan d caps options = .ok s ∧ s.validate = .ok () ∧
        (∀ st ∈ s.steps, st.Proper d caps) ∧
        ∀ k st, s.steps[k]? = some st →
          st.dramState = (s.steps.take (k + 1)).flatMap (·.store) := by
  obtain ⟨b, xr, xc, hsound, hcommon, hformed⟩ := build_formed hword hbuild
  have hwithin := build_within hbuild hsound hcaps
  rcases (plan_refuses options hsound.pos hcommon hformed hwithin).ok_or_diagnose with ⟨s, hs⟩ | ⟨object, detail, h, -⟩
  · obtain ⟨steps, hrec, hproper, hside, hnX, hcaps'⟩ :=
      plan_proper hsound.pos hcommon hformed hwithin hs
    refine Or.inr ⟨s, hs, ?_, fun st hst => ?_, fun k st hk => ?_⟩
    · exact validate_proper hsound.pos hcommon hformed (hcaps' ▸ hwithin) hside hnX hrec
        (hcaps' ▸ hproper)
    · rw [hrec, recordStores_eq] at hst
      obtain ⟨t, ht, _, rfl⟩ := mem_withStores hst
      exact { hproper t ht with }
    · rw [hrec, recordStores_eq] at hk ⊢
      obtain ⟨t, ht, rfl⟩ := withStores_getElem hk
      rw [List.nil_append, take_withStores, withStores_flatMap (·.store) fun _ _ => rfl]
  · exact Or.inl ⟨object, detail, h⟩

/-- The product of four blocks, column by column: four steps that pass the check. -/
theorem fourBlocks_validates : ∃ d caps s, Program.fourBlocks.WordSized ∧
    Shaped.build .fourBlocks .twoBlocks = .ok d ∧
    Config.twoBlocks.schedulingCapacities = .ok caps ∧ plan d caps { strategy := 3 } = .ok s ∧
    s.steps.length = 4 ∧ s.validate = .ok () ∧ (∀ st ∈ s.steps, st.Proper d caps) ∧
    ∀ k st, s.steps[k]? = some st → st.dramState = (s.steps.take (k + 1)).flatMap (·.store) := by
  obtain ⟨⟨⟩, -, h⟩ := Outcome.bind_eq_ok.1 fourBlocks_planned
  obtain ⟨caps, hcaps, h⟩ := Outcome.bind_eq_ok.1 h
  obtain ⟨d, hd, h⟩ := Outcome.bind_eq_ok.1 h
  obtain ⟨s, hs, h⟩ := Outcome.bind_eq_ok.1 h
  obtain ⟨-, -, hlen, -⟩ := of_decide_eq_true (Outcome.pure_eq_ok.1 h)
  have hword : Program.fourBlocks.WordSized := by decide +kernel
  rcases plan_validates hword hd hcaps { strategy := 3 } with ⟨_, _, hfail⟩ | ⟨s', hs', hall⟩
  · rw [hs] at hfail
    cases hfail
  · rw [hs] at hs'
    obtain rfl := Except.ok.inj hs'
    exact ⟨d, caps, s, hword, hd, hcaps, hs, hlen, hall⟩

end Tessera
