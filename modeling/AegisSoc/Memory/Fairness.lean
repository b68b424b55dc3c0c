/-
Who waits for whom at the ports of `SplitPrioritizer`.

In unified mode the selector is a plain rotation, and while a port waits each of the other two is accepted at most once
(`unified_bypass`). In the CPU-priority modes the CPU is accepted whenever it requests, but it moves the rotation too:
- `acc_after_gpu`, `gpu_not_after_gpu`: between the other two ports the rotation decides, and it favours the accelerator only
  right after a grant to the GPU;
- `gpu_iff_leaves`: once the GPU has overtaken a waiting accelerator, it does so again in every cycle that it asks for and that
  the CPU leaves with the rotation at the CPU;
- `priority_bypass`: while the GPU waits, the accelerator is accepted at most once; while the accelerator waits, the GPU is
  accepted at most once exactly if it does not ask for such cycles (`GpuYields`);
- `gpu_twice`: otherwise the GPU overtakes the accelerator again and again.
-/
import AegisSoc.Memory.SplitPrioritizer

namespace AegisSoc.SplitPrioritizer

open Machine
open scoped List

/-! ## Grants -/

/-- the ports accepted in this cycle -/
def grants (r : Reg) (i : In) : List Port := [Port.cpu, .gpu, .acc].filter (reqFire r i)

/-- port `p` requests and is not accepted -/
def Waits (p : Port) (r : Reg) (i : In) : Prop := i.reqValid p = true ∧ reqFire r i p = false

instance (p : Port) (r : Reg) (i : In) : Decidable (Waits p r i) := inferInstanceAs (Decidable (_ ∧ _))

variable {r : Reg} {i : In} {p q : Port}

theorem mem_grants : p ∈ grants r i ↔ reqFire r i p = true := by
  cases p <;> simp [grants]

theorem fire_of_grants (h : grants r i = [p]) : reqFire r i p = true :=
  mem_grants.1 (h ▸ List.mem_singleton_self p)

theorem index_injective : Function.Injective Port.index := by
  intro p q h
  cases p <;> cases q <;> first | rfl | exact absurd h (by decide)

/-- a cycle accepts nobody and keeps the rotation, or accepts one port, which requests, and moves the rotation to it -/
theorem grants_cases (r : Reg) (i : In) :
    (HBM3Stack.reqFire r.hbm (hbmIn r i) = false ∧ grants r i = [] ∧ (next r i).rr = r.rr) ∨
    (HBM3Stack.reqFire r.hbm (hbmIn r i) = true ∧ ∃ p, i.reqValid p = true ∧ sel r i = BitVec.ofNat 2 p.index ∧
      grants r i = [p] ∧ (next r i).rr = BitVec.ofNat 2 p.index) := by
  cases hf : HBM3Stack.reqFire r.hbm (hbmIn r i) with
  | false =>
    refine .inl ⟨rfl, List.filter_eq_nil_iff.2 fun p _ hp => ?_, by simp [next, hf]⟩
    exact absurd (hf.symm.trans (reqFire_iff.1 hp).1) Bool.false_ne_true
  | true =>
    have ha : any i = true := ((Bool.and_eq_true _ _).mp hf).1
    obtain ⟨p, hp, hv⟩ := exists_serve r ha
    have hsel : sel r i = BitVec.ofNat 2 p.index := by
      simp only [serve, Bool.and_eq_true, beq_iff_eq] at hp
      exact hp.2
    have hfire : ∀ q, reqFire r i q = decide (q = p) := fun q => by
      rw [Bool.eq_iff_iff, reqFire_iff, decide_eq_true_eq]
      exact ⟨fun hq => serve_unique hq.2 hp, fun hq => ⟨hf, hq ▸ hp⟩⟩
    refine .inr ⟨rfl, p, hv, hsel, ?_, by simp [next, hf, hsel]⟩
    cases p <;> simp [grants, hfire]

/-- a ready stack accepts exactly one of the requesting ports -/
theorem accepts_one (hr : HBM3Stack.reqReady r.hbm = true) (hp : i.reqValid p = true) :
    ∃ q, i.reqValid q = true ∧ ∀ q', reqFire r i q' = true ↔ q' = q := by
  have ha : any i = true := by cases p <;> simp [any, hp]
  rcases grants_cases r i with ⟨hf, -⟩ | ⟨-, q, hv, -, hg, -⟩
  · simp [HBM3Stack.reqFire, hbmIn, ha, hr] at hf
  · refine ⟨q, hv, fun q' => ?_⟩
    rw [← mem_grants, hg, List.mem_singleton]

/-! ## The rotation -/

/-- the position served last -/
def last (r : Reg) : ℕ := r.rr.toNat

/-- the requests by position -/
def requests (_ : Reg) (i : In) (k : ℕ) : Bool := i.reqValid (Port.ofIndex k)

/-- the positions accepted in this cycle -/
def served (r : Reg) (i : In) : List ℕ := (grants r i).map Port.index

/-- where the CPU does not override it, the rotation selects the port -/
theorem index_eq_select (hs : sel r i = BitVec.ofNat 2 p.index) (hc : (cpuPriority i && i.reqValid .cpu) = false) :
    p.index = RoundRobin.select 3 (last r) (requests r i) := by
  have hlt := RoundRobin.select_lt (by omega : 0 < 3) (last r) (requests r i)
  have hto : (RoundRobin.select 3 (last r) (requests r i)) % 2 ^ 2 = p.index % 2 ^ 2 := by
    have hto := congrArg BitVec.toNat hs
    rw [sel, hc, if_neg Bool.false_ne_true, fairSel, BitVec.toNat_ofNat, BitVec.toNat_ofNat] at hto
    exact hto
  cases p <;> simp only [Port.index] at hto ⊢ <;> omega

theorem last_next (h : (next r i).rr = BitVec.ofNat 2 p.index) : last (next r i) = p.index := by
  rw [last, h]
  cases p <;> rfl

/-- a cycle in which the CPU does not override the rotation -/
theorem serves (hc : (cpuPriority i && i.reqValid .cpu) = false) : RoundRobin.Serves 3 next last requests served r i := by
  rcases grants_cases r i with ⟨-, hg, hrr⟩ | ⟨-, p, -, hsel, hg, hrr⟩
  · exact .inl ⟨by rw [served, hg]; rfl, by rw [last, hrr]; rfl⟩
  · have hindex := index_eq_select hsel hc
    exact .inr ⟨by rw [served, hg, ← hindex]; rfl, by rw [last_next hrr, hindex]⟩

theorem ofIndex_index (p : Port) : Port.ofIndex p.index = p := by
  cases p <;> rfl

/-- the ports accepted in a run, by position -/
theorem collect_served (r : Reg) (ins : List In) :
    collect next served r ins = (collect next grants r ins).map Port.index := by
  induction ins generalizing r with
  | nil => rfl
  | cons i ins ih =>
    rw [collect_cons, collect_cons, List.map_append, ih]
    rfl

/-! ## Unified mode -/

/-- **Bounded bypass in unified mode.** After any run from reset, in any stretch of cycles in which port `p` waits, each of
the other two is accepted at most once. Whenever some port requests while the stack is ready, exactly one requesting port
is accepted. -/
theorem unified_bypass (a : BitVec 64) (d : BitVec 512) (w : Bool) (before stretch : List In)
    (hmode : ∀ i ∈ before ++ stretch, i.mode = 0) :
    let r := run next (reset a d w) before
    (∀ p q, q ≠ p → Always next (Waits p) r stretch → (collect next grants r stretch).count q ≤ 1) ∧
    (∀ i, HBM3Stack.reqReady r.hbm = true → (∃ p, i.reqValid p = true) →
      ∃ p, i.reqValid p = true ∧ ∀ q, reqFire r i q = true ↔ q = p) := by
  intro r
  refine ⟨fun p q hq hwait => ?_, fun i hr ⟨p, hp⟩ => accepts_one hr hp⟩
  have hserve : Always next (fun r i => RoundRobin.Serves 3 next last requests served r i ∧
      RoundRobin.Waits requests served p.index r i) r stretch := by
    refine always_imp (fun i hi r hw => ⟨serves ?_, ?_, fun hmem => ?_⟩) hwait
    · have hm : i.mode = 0 := hmode i (List.mem_append_right _ hi)
      simp [cpuPriority, hm, modeGaming, modeAi]
    · rw [requests, ofIndex_index]
      exact hw.1
    · obtain ⟨p', hp', hpp⟩ := List.mem_map.1 hmem
      rw [index_injective hpp, mem_grants, hw.2] at hp'
      exact absurd hp' Bool.false_ne_true
  have hlt : p.index < 3 := by cases p <;> decide
  have hne : q.index ≠ p.index := fun h => hq (index_injective h)
  have hcount := RoundRobin.bypass hlt hne hserve
  rwa [collect_served, List.count_map_of_injective _ _ index_injective] at hcount

/-- the ports `ps` request, and every port takes its responses -/
def asking (mode : BitVec 2) (ps : List Port) : In :=
  ⟨fun p => ps.contains p, fun _ => ⟨0, 0, false⟩, fun _ => true, mode⟩

/-- the CPU waits for one GPU request and one request of the accelerator -/
theorem unified_bypass_cpu :
    let stretch := List.replicate 8 (asking 0 [.cpu, .gpu, .acc])
    (Always next (Waits .cpu) (reset 0 0 false) stretch ∧
      collect next grants (reset 0 0 false) stretch = [.gpu, .acc]) ∧
      (collect next grants (reset 0 0 false) stretch).count .gpu ≤ 1 := by
  intro stretch
  have hwait : Always next (Waits .cpu) (reset 0 0 false) stretch := by decide +kernel
  exact ⟨⟨hwait, by decide +kernel⟩,
    (unified_bypass 0 0 false [] stretch (by decide)).1 .cpu .gpu (by decide) hwait⟩

/-! ## The CPU-priority modes -/

/-- a port other than the CPU is accepted only where the CPU does not override the rotation, and before every requesting port
that comes later in the rotation -/
theorem fired_first (hf : reqFire r i p = true) (hp : p ≠ .cpu) :
    (cpuPriority i && i.reqValid .cpu) = false ∧ ∀ q, i.reqValid q = true →
      RoundRobin.place 3 (last r) p.index ≤ RoundRobin.place 3 (last r) q.index := by
  have hsel : sel r i = BitVec.ofNat 2 p.index := by
    have hs := (reqFire_iff.1 hf).2
    simp only [serve, Bool.and_eq_true, beq_iff_eq] at hs
    exact hs.2
  have hc : (cpuPriority i && i.reqValid .cpu) = false := by
    rw [Bool.eq_false_iff]
    intro hc
    rw [sel, hc, if_pos rfl] at hsel
    cases p with
    | cpu => exact hp rfl
    | gpu => exact absurd hsel (by decide)
    | acc => exact absurd hsel (by decide)
  refine ⟨hc, fun q hq => ?_⟩
  rw [index_eq_select hsel hc]
  exact RoundRobin.select_first (by cases q <;> decide) (by rw [requests, ofIndex_index]; exact hq) (last r)

/-- the accelerator is accepted before a requesting GPU only right after a grant to the GPU -/
theorem acc_after_gpu (hf : reqFire r i .acc = true) (hv : i.reqValid .gpu = true) : last r = 1 := by
  have hle : (if last r < 2 then 2 else 5) ≤ (if last r < 1 then 1 else 4) := (fired_first hf (by decide)).2 .gpu hv
  by_cases htwo : last r < 2
  · by_cases hone : last r < 1
    · rw [if_pos htwo, if_pos hone] at hle
      exact absurd hle (by decide)
    · omega
  · rw [if_neg htwo, if_neg (by omega)] at hle
    exact absurd hle (by decide)

/-- the GPU is not accepted before a requesting accelerator right after a grant to the GPU -/
theorem gpu_not_after_gpu (hf : reqFire r i .gpu = true) (hv : i.reqValid .acc = true) : last r ≠ 1 := by
  intro hlast
  have hle := (fired_first hf (by decide)).2 .acc hv
  rw [hlast] at hle
  exact absurd hle (by decide)

/-- the stack is ready, the rotation stands at the CPU, and the CPU leaves the cycle to the other ports -/
def CpuLeaves (r : Reg) (i : In) : Prop :=
  HBM3Stack.reqReady r.hbm = true ∧ r.rr = 0 ∧ i.reqValid .cpu = false

instance (r : Reg) (i : In) : Decidable (CpuLeaves r i) := inferInstanceAs (Decidable (_ ∧ _ ∧ _))

/-- once a GPU request has been accepted in the stretch, the GPU does not request in a cycle that the CPU leaves -/
def GpuYields (r : Reg) : List In → Prop
  | [] => True
  | i :: stretch =>
    (reqFire r i .gpu = true → Always next (fun r j => CpuLeaves r j → j.reqValid .gpu = false) (next r i) stretch) ∧
      GpuYields (next r i) stretch

instance decidableGpuYields : ∀ (r : Reg) (stretch : List In), Decidable (GpuYields r stretch)
  | _, [] => isTrue trivial
  | r, i :: stretch =>
    have := decidableGpuYields (next r i) stretch
    inferInstanceAs (Decidable ((_ → Always _ _ _ _) ∧ GpuYields (next r i) stretch))

/-- a port that requests and is not accepted while nobody is finds the stack busy -/
theorem not_ready (hv : i.reqValid p = true) (hf : HBM3Stack.reqFire r.hbm (hbmIn r i) = false) :
    HBM3Stack.reqReady r.hbm = false := by
  have ha : any i = true := by cases p <;> simp [any, hv]
  simpa [HBM3Stack.reqFire, hbmIn, ha] using hf

/-- the GPU is accepted before a requesting accelerator in the cycles that the CPU leaves, and as long as the rotation has
not yet come round in no others -/
theorem gpu_iff_leaves (hm : cpuPriority i = true) (hw : Waits .acc r i) (hl : last r ≤ 1) :
    reqFire r i .gpu = true ↔ CpuLeaves r i ∧ i.reqValid .gpu = true := by
  constructor
  · intro hf
    obtain ⟨hc, -⟩ := fired_first hf (by decide)
    have hlast : r.rr.toNat ≠ 1 := gpu_not_after_gpu hf hw.1
    have hrr : r.rr = 0 := BitVec.eq_of_toNat_eq (show r.rr.toNat = 0 by simp only [last] at hl; omega)
    rw [hm, Bool.true_and] at hc
    have hready := (Bool.and_eq_true _ _).mp (reqFire_iff.1 hf).1
    exact ⟨⟨hready.2, hrr, hc⟩, ((Bool.and_eq_true _ _).mp hf).1⟩
  · rintro ⟨⟨hready, hrr, hcpu⟩, hgpu⟩
    rcases grants_cases r i with ⟨hf, -⟩ | ⟨-, p, hv, -, hg, -⟩
    · exact absurd ((not_ready hgpu hf).symm.trans hready) Bool.false_ne_true
    · have hfire : reqFire r i p = true := fire_of_grants hg
      cases p with
      | cpu => exact absurd (hcpu.symm.trans hv) Bool.false_ne_true
      | gpu => exact hfire
      | acc => exact absurd (hw.2.symm.trans hfire) Bool.false_ne_true

/-- after a grant to the GPU or to the CPU, a waiting accelerator is not overtaken exactly if the GPU yields -/
theorem gpu_not_served {stretch : List In} (hm : ∀ i ∈ stretch, cpuPriority i = true)
    (h : Always next (Waits .acc) r stretch) (hl : last r ≤ 1) :
    .gpu ∉ collect next grants r stretch ↔ Always next (fun r j => CpuLeaves r j → j.reqValid .gpu = false) r stretch := by
  induction stretch generalizing r with
  | nil => exact iff_of_true List.not_mem_nil trivial
  | cons i stretch ih =>
    obtain ⟨hwait, hrest⟩ := h
    have hnext : last (next r i) ≤ 1 := by
      rcases grants_cases r i with ⟨-, -, hrr⟩ | ⟨-, p, -, -, hg, hrr⟩
      · rwa [last, hrr]
      · rw [last_next hrr]
        cases p with
        | cpu => decide
        | gpu => decide
        | acc => exact absurd (hwait.2.symm.trans (fire_of_grants hg)) Bool.false_ne_true
    have hnow : .gpu ∉ grants r i ↔ (CpuLeaves r i → i.reqValid .gpu = false) := by
      rw [mem_grants, gpu_iff_leaves (hm i List.mem_cons_self) hwait hl, not_and, Bool.not_eq_true]
    have hlater := ih (fun j hj => hm j (List.mem_cons_of_mem _ hj)) hrest hnext
    rw [collect_cons, List.mem_append, not_or, always_cons, hnow, hlater]

/-- while the accelerator waits -/
theorem gpu_once_iff {stretch : List In} (hm : ∀ i ∈ stretch, cpuPriority i = true)
    (h : Always next (Waits .acc) r stretch) : (collect next grants r stretch).count .gpu ≤ 1 ↔ GpuYields r stretch := by
  induction stretch generalizing r with
  | nil => exact iff_of_true (Nat.zero_le 1) trivial
  | cons i stretch ih =>
    obtain ⟨hwait, hrest⟩ := h
    have hm' : ∀ j ∈ stretch, cpuPriority j = true := fun j hj => hm j (List.mem_cons_of_mem _ hj)
    have ih := ih hm' hrest
    rw [collect_cons, List.count_append, GpuYields]
    by_cases hf : reqFire r i .gpu = true
    · rcases grants_cases r i with ⟨-, hg, -⟩ | ⟨-, p, -, -, hg, hrr⟩
      · exact absurd (hg ▸ mem_grants.2 hf) List.not_mem_nil
      · obtain rfl : Port.gpu = p := List.mem_singleton.1 (hg ▸ mem_grants.2 hf)
        have hlater := gpu_not_served hm' hrest (by rw [last_next hrr]; decide)
        rw [hg, ← hlater, ← ih, ← List.count_eq_zero]
        simp only [hf, List.count_singleton_self, forall_const]
        omega
    · have hnone : (grants r i).count .gpu = 0 := List.count_eq_zero.2 fun hmem => hf (mem_grants.1 hmem)
      rw [hnone, Nat.zero_add, ih]
      exact (and_iff_right fun hf' => absurd hf' hf).symm

/-- while the GPU waits, the accelerator is accepted only right after a grant to the GPU -/
theorem acc_not_served {stretch : List In} (h : Always next (Waits .gpu) r stretch) (hl : last r ≠ 1) :
    .acc ∉ collect next grants r stretch := by
  induction stretch generalizing r with
  | nil => exact List.not_mem_nil
  | cons i stretch ih =>
    obtain ⟨hwait, hrest⟩ := h
    rw [collect_cons, List.mem_append, not_or]
    rcases grants_cases r i with ⟨-, hg, hrr⟩ | ⟨-, p, -, -, hg, hrr⟩
    · have hlast : last (next r i) = last r := by rw [last, hrr]; rfl
      exact ⟨by simp [hg], ih hrest (hlast ▸ hl)⟩
    · have hlast := last_next hrr
      have hfire : reqFire r i p = true := fire_of_grants hg
      cases p with
      | cpu => exact ⟨by simp [hg], ih hrest (by rw [hlast]; decide)⟩
      | gpu => exact absurd (hwait.2.symm.trans hfire) Bool.false_ne_true
      | acc => exact absurd (acc_after_gpu hfire hwait.1) hl

theorem acc_once {stretch : List In} (h : Always next (Waits .gpu) r stretch) :
    (collect next grants r stretch).count .acc ≤ 1 := by
  induction stretch generalizing r with
  | nil => exact Nat.zero_le 1
  | cons i stretch ih =>
    obtain ⟨hwait, hrest⟩ := h
    rw [collect_cons, List.count_append]
    rcases grants_cases r i with ⟨-, hg, -⟩ | ⟨-, p, -, -, hg, hrr⟩
    · rw [hg, List.count_nil, Nat.zero_add]
      exact ih hrest
    · rw [hg]
      cases p with
      | acc =>
        have hnone : Port.acc ∉ collect next grants (next r i) stretch :=
          acc_not_served hrest (by rw [last_next hrr]; decide)
        rw [List.count_eq_zero_of_not_mem hnone]
        decide
      | _ => simpa using ih hrest

/-- **The CPU-priority modes.** After any run from reset, with the mode held at one of the two:
- in any stretch of cycles in which the accelerator waits, the GPU is accepted at most once if and only if, after a GPU request
  accepted in the stretch, the GPU does not request in a cycle in which the stack is ready, the rotation stands at the CPU
  and the CPU does not request;
- in any stretch in which the GPU waits, the accelerator is accepted at most once;
- in a cycle in which the CPU requests no other port is accepted. -/
theorem priority_bypass (a : BitVec 64) (d : BitVec 512) (w : Bool) (mode : BitVec 2)
    (hm : mode = modeGaming ∨ mode = modeAi) (before stretch : List In) (hmode : ∀ i ∈ before ++ stretch, i.mode = mode) :
    let r := run next (reset a d w) before
    (Always next (Waits .acc) r stretch → ((collect next grants r stretch).count .gpu ≤ 1 ↔ GpuYields r stretch)) ∧
    (Always next (Waits .gpu) r stretch → (collect next grants r stretch).count .acc ≤ 1) ∧
    Always next (fun r i => i.reqValid .cpu = true → ∀ p, reqFire r i p = true → p = .cpu) r stretch := by
  intro r
  have hpriority : ∀ i ∈ stretch, cpuPriority i = true := fun i hi => by
    rw [cpuPriority, hmode i (List.mem_append_right _ hi)]
    rcases hm with rfl | rfl <;> decide
  refine ⟨gpu_once_iff hpriority, acc_once, ?_⟩
  refine always_imp (fun i hi r _ hcpu p hf => ?_) (always_true next r stretch)
  by_contra hp
  have hc := (fired_first hf hp).1
  rw [hpriority i hi, hcpu] at hc
  exact absurd hc (by decide)

/-- the accelerator waits for one GPU request and two CPU requests; the CPU leaves no cycle that the GPU could ask for -/
theorem priority_bypass_gpu :
    let stretch := List.replicate 4 (asking modeAi [.gpu, .acc]) ++ List.replicate 4 (asking modeAi [.cpu, .gpu, .acc])
    (Always next (Waits .acc) (reset 0 0 false) stretch ∧
      collect next grants (reset 0 0 false) stretch = [.gpu, .cpu, .cpu] ∧ GpuYields (reset 0 0 false) stretch) ∧
      (collect next grants (reset 0 0 false) stretch).count .gpu ≤ 1 := by
  intro stretch
  have hwait : Always next (Waits .acc) (reset 0 0 false) stretch := by decide +kernel
  have hyields : GpuYields (reset 0 0 false) stretch := by decide +kernel
  exact ⟨⟨hwait, by decide +kernel, hyields⟩,
    ((priority_bypass 0 0 false modeAi (.inr rfl) [] stretch (by decide)).1 hwait).2 hyields⟩

/-- **The GPU overtakes a waiting accelerator twice**, with one CPU request in between. -/
theorem gpu_twice :
    let stretch := List.replicate 4 (asking modeGaming [.gpu, .acc]) ++ [asking modeGaming [.cpu, .gpu, .acc]] ++
      List.replicate 4 (asking modeGaming [.gpu, .acc])
    Always next (Waits .acc) (reset 0 0 false) stretch ∧
      collect next grants (reset 0 0 false) stretch = [.gpu, .cpu, .gpu] := by
  decide +kernel

end AegisSoc.SplitPrioritizer
