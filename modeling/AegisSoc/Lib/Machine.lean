/-
Synchronous machines. A machine has registers `S`, takes one input record `I` per clock cycle and is given by its
next-state function `step : S → I → S`. A run is the list of its inputs.

- `run`: the registers after a list of cycles;
- `collect`: what the cycles of a run show (handshakes, beats, retired instructions), in order;
- `Always`: a condition on registers and inputs that holds in every cycle of a run.

Rules:
- `run_inv`: an invariant that every cycle keeps holds after every run;
- `run_ghost`: the same for an invariant that also speaks about a ghost state, driven by what the cycles show;
- `run_until`: if the same input, given in every cycle in which `P` holds, brings the machine closer to its goal, then a
  run exists that leaves `P`;
- `progress`, `reaches`, `finishes`: if every cycle short of the goal leaves less to do, the goal is reached in bounded time;
- `repeats`, `paced`: the same again and again, until the machine stops;
- `run_proj`, `collect_proj`, `always_proj`: a component of a composite machine makes a run of its own, under the inputs
  that the composite gives it.
-/
import Mathlib.Tactic

namespace AegisSoc.Machine

variable {S I E G T J : Type*}

/-- the registers after the cycles `ins` -/
def run (step : S → I → S) (s : S) (ins : List I) : S := ins.foldl step s

/-- what the cycles of a run show, in order; one cycle shows `f s i` -/
def collect (step : S → I → S) (f : S → I → List E) (s : S) : List I → List E
  | [] => []
  | i :: ins => f s i ++ collect step f (step s i) ins

/-- `P` holds in every cycle of the run -/
def Always (step : S → I → S) (P : S → I → Prop) (s : S) : List I → Prop
  | [] => True
  | i :: ins => P s i ∧ Always step P (step s i) ins

instance decidableAlways (step : S → I → S) (P : S → I → Prop) [∀ s i, Decidable (P s i)] :
    ∀ (s : S) (ins : List I), Decidable (Always step P s ins)
  | _, [] => isTrue trivial
  | s, i :: ins =>
    have := decidableAlways step P (step s i) ins
    inferInstanceAs (Decidable (P s i ∧ Always step P (step s i) ins))

section Run

variable (step : S → I → S)

@[simp] theorem run_nil (s : S) : run step s [] = s := rfl

@[simp] theorem run_cons (s : S) (i : I) (ins : List I) : run step s (i :: ins) = run step (step s i) ins := rfl

theorem run_append (s : S) (a b : List I) : run step s (a ++ b) = run step (run step s a) b := by
  simp [run, List.foldl_append]

theorem run_snoc (s : S) (ins : List I) (i : I) : run step s (ins ++ [i]) = step (run step s ins) i := by
  rw [run_append]; rfl

variable (f : S → I → List E)

@[simp] theorem collect_nil (s : S) : collect step f s [] = [] := rfl

@[simp] theorem collect_cons (s : S) (i : I) (ins : List I) :
    collect step f s (i :: ins) = f s i ++ collect step f (step s i) ins := rfl

theorem collect_append (s : S) (a b : List I) :
    collect step f s (a ++ b) = collect step f s a ++ collect step f (run step s a) b := by
  induction a generalizing s with
  | nil => rfl
  | cons i a ih => simp only [List.cons_append, collect_cons, run_cons, ih, List.append_assoc]

theorem collect_snoc (s : S) (ins : List I) (i : I) :
    collect step f s (ins ++ [i]) = collect step f s ins ++ f (run step s ins) i := by
  rw [collect_append]; simp

variable (P : S → I → Prop)

@[simp] theorem always_nil (s : S) : Always step P s [] := trivial

@[simp] theorem always_cons (s : S) (i : I) (ins : List I) :
    Always step P s (i :: ins) ↔ P s i ∧ Always step P (step s i) ins := Iff.rfl

theorem always_append (s : S) (a b : List I) :
    Always step P s (a ++ b) ↔ Always step P s a ∧ Always step P (run step s a) b := by
  induction a generalizing s with
  | nil => simp
  | cons i a ih => simp [ih, and_assoc]

end Run

/-- **Invariant rule.** An invariant kept by every cycle that meets `P` holds after every run that always meets `P`. -/
theorem run_inv {step : S → I → S} {P : S → I → Prop} (Inv : S → Prop)
    (hstep : ∀ s i, Inv s → P s i → Inv (step s i)) {s : S} {ins : List I} (h : Inv s) (hP : Always step P s ins) :
    Inv (run step s ins) := by
  induction ins generalizing s with
  | nil => exact h
  | cons i ins ih => exact ih (hstep s i h hP.1) hP.2

/-- **Ghost invariant rule.** The ghost state follows what the cycles show. -/
theorem run_ghost {step : S → I → S} {P : S → I → Prop} {f : S → I → List E} {gstep : G → E → G}
    (Inv : S → G → Prop)
    (hstep : ∀ s g i, Inv s g → P s i → Inv (step s i) ((f s i).foldl gstep g)) {s : S} {g : G} {ins : List I}
    (h : Inv s g) (hP : Always step P s ins) :
    Inv (run step s ins) ((collect step f s ins).foldl gstep g) := by
  induction ins generalizing s g with
  | nil => exact h
  | cons i ins ih =>
    rw [collect_cons, List.foldl_append]
    exact ih (hstep s g i h hP.1) hP.2

/-- **Progress rule.** `Q k s` says that at most `k` is left to do. -/
theorem run_until {step : S → I → S} {P : S → Prop} (Q : ℕ → S → Prop) (i : I)
    (hstep : ∀ k s, Q k s → P s → ∃ k' < k, Q k' (step s i)) {k : ℕ} {s : S} (h : Q k s) :
    ∃ n, Always step (fun s _ => P s) s (List.replicate n i) ∧ ¬ P (run step s (List.replicate n i)) := by
  induction k using Nat.strong_induction_on generalizing s with
  | _ k ih =>
    by_cases hP : P s
    · obtain ⟨k', hk, hQ⟩ := hstep k s h hP
      obtain ⟨n, ha, hn⟩ := ih k' hk hQ
      exact ⟨n + 1, ⟨hP, ha⟩, hn⟩
    · exact ⟨0, trivial, hP⟩

/-- **Bounded progress rule**, for any inputs: if every cycle short of the goal leaves less to do, the goal is reached before
`k + 1` cycles are over, and up to then there was work to do. -/
theorem progress {step : S → I → S} {A P : S → I → Prop} (Q : ℕ → S → Prop)
    (hstep : ∀ k s i, Q k s → A s i → ¬ P s i → ∃ k' < k, Q k' (step s i)) {k : ℕ} {s : S} {ins : List I}
    (h : Q k s) (hA : Always step A s ins) (hlen : k < ins.length) :
    ∃ a i b, ins = a ++ i :: b ∧ a.length ≤ k ∧ Always step (fun s _ => ∃ k, Q k s) s (a ++ [i]) ∧ P (run step s a) i := by
  induction ins generalizing k s with
  | nil => exact absurd hlen (Nat.not_lt_zero _)
  | cons i ins ih =>
    by_cases hP : P s i
    · exact ⟨[], i, ins, rfl, Nat.zero_le _, ⟨⟨k, h⟩, trivial⟩, hP⟩
    · obtain ⟨k', hk, hQ⟩ := hstep k s i h hA.1 hP
      rw [List.length_cons] at hlen
      obtain ⟨a, i', b, rfl, hle, hwork, hgoal⟩ := ih hQ hA.2 (by omega)
      exact ⟨i :: a, i', b, rfl, by rw [List.length_cons]; omega, ⟨⟨k, h⟩, hwork⟩, hgoal⟩

theorem reaches {step : S → I → S} {A P : S → I → Prop} (Q : ℕ → S → Prop)
    (hstep : ∀ k s i, Q k s → A s i → ¬ P s i → ∃ k' < k, Q k' (step s i)) {k : ℕ} {s : S} {ins : List I}
    (h : Q k s) (hA : Always step A s ins) (hlen : k < ins.length) :
    ∃ a i b, ins = a ++ i :: b ∧ a.length ≤ k ∧ P (run step s a) i := by
  obtain ⟨a, i, b, hins, hle, -, hgoal⟩ := progress Q hstep h hA hlen
  exact ⟨a, i, b, hins, hle, hgoal⟩

/-- the rule for a goal that the registers show -/
theorem finishes {step : S → I → S} {A : S → I → Prop} {D : S → Prop} (Q : ℕ → S → Prop)
    (hstep : ∀ k s i, Q k s → A s i → ¬ D (step s i) → ∃ k' < k, Q k' (step s i)) {k : ℕ} {s : S} {ins : List I}
    (h : Q k s) (hA : Always step A s ins) (hlen : k < ins.length) :
    ∃ a b, ins = a ++ b ∧ a.length ≤ k + 1 ∧ Always step (fun s _ => ∃ k, Q k s) s a ∧ D (run step s a) := by
  obtain ⟨a, i, b, rfl, hle, hwork, hdone⟩ := progress Q hstep h hA hlen
  refine ⟨a ++ [i], b, by rw [List.append_assoc]; rfl, ?_, hwork, ?_⟩
  · rw [List.length_append, List.length_singleton]
    omega
  · rw [run_snoc]
    exact hdone

theorem always_true (step : S → I → S) (s : S) (ins : List I) : Always step (fun _ _ => True) s ins := by
  induction ins generalizing s with
  | nil => trivial
  | cons i ins ih => exact ⟨trivial, ih _⟩

/-- **Repeated progress rule.** If in every `m + 1` cycles something is shown or the machine stops, then in `n * (m + 1)` cycles
`n` things are shown or the machine has stopped. -/
theorem repeats {step : S → I → S} {f : S → I → List E} {P : S → Prop} (Inv : S → Prop) {m : ℕ}
    (hinv : ∀ s i, Inv s → Inv (step s i)) (hstop : ∀ s i, P s → P (step s i))
    (hone : ∀ s ins, Inv s → ¬ P s → m < ins.length →
      ∃ a i b, ins = a ++ i :: b ∧ a.length ≤ m ∧ (0 < (f (run step s a) i).length ∨ P (step (run step s a) i)))
    (n : ℕ) {s : S} {ins : List I} (h : Inv s) (hlen : n * (m + 1) ≤ ins.length) :
    P (run step s ins) ∨ n ≤ (collect step f s ins).length := by
  have hstops : ∀ s ins, P s → P (run step s ins) := fun s ins hP =>
    run_inv P (fun s i h _ => hstop s i h) hP (always_true _ _ _)
  induction n generalizing s ins with
  | zero => exact .inr (Nat.zero_le _)
  | succ n ih =>
    by_cases hP : P s
    · exact .inl (hstops s ins hP)
    rw [Nat.succ_mul] at hlen
    obtain ⟨a, i, b, rfl, ha, hshown⟩ := hone s ins h hP (by omega)
    have hreach : Inv (run step s a) := run_inv Inv (fun s i h _ => hinv s i h) h (always_true _ _ _)
    rw [run_append, run_cons, collect_append, collect_cons]
    rcases hshown with hshown | hend
    · rw [List.length_append, List.length_cons] at hlen
      refine (ih (hinv _ i hreach) (by omega)).imp_right fun hle => ?_
      rw [List.length_append, List.length_append]
      omega
    · exact .inl (hstops _ b hend)

/-- **Amortised progress rule.** Every cycle with an item of `u` leaves less to do, shows something or stops the machine, and
there is never more than `m` to do. Then in `n * (m + 1)` such cycles `n` things are shown or the machine has stopped. -/
theorem paced {step : S → I → S} {f : S → I → List E} {u : S → I → List G} {P : S → Prop} (Inv : S → Prop) (left : S → ℕ)
    {m : ℕ} (hinv : ∀ s i, Inv s → Inv (step s i)) (hstop : ∀ s i, P s → P (step s i)) (hle : ∀ s, left s ≤ m)
    (hstep : ∀ s i, Inv s → ¬ P s → P (step s i) ∨ left (step s i) + (u s i).length ≤ left s + (m + 1) * (f s i).length)
    (n : ℕ) {s : S} {ins : List I} (h : Inv s) (hlen : n * (m + 1) ≤ (collect step u s ins).length) :
    P (run step s ins) ∨ n ≤ (collect step f s ins).length := by
  have hstops : ∀ s ins, P s → P (run step s ins) := fun s ins hP =>
    run_inv P (fun s i h _ => hstop s i h) hP (always_true _ _ _)
  have hrun : P (run step s ins) ∨
      left (run step s ins) + (collect step u s ins).length ≤ left s + (m + 1) * (collect step f s ins).length := by
    clear hlen
    induction ins generalizing s with
    | nil => exact .inr le_rfl
    | cons i ins ih =>
      by_cases hP : P s
      · exact .inl (hstops s _ hP)
      rcases hstep s i h hP with hend | hone
      · exact .inl (hstops _ ins hend)
      · refine (ih (hinv s i h)).imp_right fun hrest => ?_
        rw [run_cons, collect_cons, collect_cons, List.length_append, List.length_append, Nat.mul_add]
        omega
  refine hrun.imp_right fun hrun => ?_
  have hbound := hle s
  have hlt : n * (m + 1) < ((collect step f s ins).length + 1) * (m + 1) := by
    rw [Nat.succ_mul, Nat.mul_comm (collect step f s ins).length]
    omega
  exact Nat.lt_succ_iff.1 (Nat.lt_of_mul_lt_mul_right hlt)

/-- the invariant holds in every cycle of the run, too -/
theorem always_inv {step : S → I → S} {P : S → I → Prop} (Inv : S → Prop)
    (hstep : ∀ s i, Inv s → P s i → Inv (step s i)) {s : S} {ins : List I} (h : Inv s) (hP : Always step P s ins) :
    Always step (fun s i => Inv s ∧ P s i) s ins := by
  induction ins generalizing s with
  | nil => trivial
  | cons i ins ih => exact ⟨⟨h, hP.1⟩, ih (hstep s i h hP.1) hP.2⟩

/-- what a cycle shows is among what the run shows -/
theorem always_collect {step : S → I → S} {f : S → I → List E} {s : S} {ins : List I} {l : List E}
    (h : ∀ e ∈ collect step f s ins, e ∈ l) : Always step (fun s i => ∀ e ∈ f s i, e ∈ l) s ins := by
  induction ins generalizing s with
  | nil => trivial
  | cons i ins ih =>
    exact ⟨fun e he => h e (List.mem_append_left _ he), ih fun e he => h e (List.mem_append_right _ he)⟩

/-- what holds of all that each cycle shows holds of all that the run shows -/
theorem collect_forall {step : S → I → S} {f : S → I → List E} {P : E → Prop} {s : S} {ins : List I}
    (h : Always step (fun s i => ∀ e ∈ f s i, P e) s ins) : ∀ e ∈ collect step f s ins, P e := by
  induction ins generalizing s with
  | nil => exact fun e he => absurd he List.not_mem_nil
  | cons i ins ih =>
    intro e he
    rcases List.mem_append.1 he with he | he
    · exact h.1 e he
    · exact ih h.2 e he

theorem collect_eq_nil {step : S → I → S} {f : S → I → List E} {s : S} {ins : List I}
    (h : Always step (fun s i => f s i = []) s ins) : collect step f s ins = [] := by
  induction ins generalizing s with
  | nil => rfl
  | cons i ins ih => rw [collect_cons, h.1, ih h.2, List.append_nil]

theorem always_imp {step : S → I → S} {P Q : S → I → Prop} {s : S} {ins : List I} (h : ∀ i ∈ ins, ∀ s, P s i → Q s i)
    (hP : Always step P s ins) : Always step Q s ins := by
  induction ins generalizing s with
  | nil => trivial
  | cons i ins ih => exact ⟨h i List.mem_cons_self s hP.1, ih (fun j hj => h j (List.mem_cons_of_mem _ hj)) hP.2⟩

theorem always_and {step : S → I → S} {P Q : S → I → Prop} {s : S} {ins : List I} (hP : Always step P s ins)
    (hQ : Always step Q s ins) : Always step (fun s i => P s i ∧ Q s i) s ins := by
  induction ins generalizing s with
  | nil => trivial
  | cons i ins ih => exact ⟨⟨hP.1, hQ.1⟩, ih hP.2 hQ.2⟩

/-- two initial segments of one sequence are comparable -/
theorem map_range_initial {f g : ℕ → E} {n n' : ℕ} (hn : n ≤ n') (h : ∀ k < n, f k = g k) :
    (List.range n).map f <+: (List.range n').map g := by
  rw [List.map_congr_left fun k hk => h k (List.mem_range.1 hk)]
  obtain ⟨d, rfl⟩ := Nat.exists_eq_add_of_le hn
  rw [List.range_add, List.map_append]
  exact List.prefix_append _ _

/-- two machines that stop at the first `p` stop at the same place -/
theorem first_unique {p : ℕ → Prop} {n n' : ℕ} (h : ∀ k < n, ¬ p k) (hn : p n) (h' : ∀ k < n', ¬ p k) (hn' : p n') :
    n = n' :=
  le_antisymm (not_lt.1 fun hlt => h n' hlt hn') (not_lt.1 fun hlt => h' n hlt hn)

/-- the inputs that a composite machine gives to one of its components -/
def inputs (step : S → I → S) (ι : S → I → J) : S → List I → List J := collect step (fun s i => [ι s i])

theorem inputs_length (step : S → I → S) (ι : S → I → J) (s : S) (ins : List I) : (inputs step ι s ins).length = ins.length := by
  induction ins generalizing s with
  | nil => rfl
  | cons i ins ih => exact congrArg Nat.succ (ih (step s i))

theorem mem_inputs {step : S → I → S} {ι : S → I → J} {s : S} {ins : List I} {x : J} (h : x ∈ inputs step ι s ins) :
    ∃ s', ∃ i ∈ ins, ι s' i = x := by
  induction ins generalizing s with
  | nil => simp [inputs] at h
  | cons i ins ih =>
    rcases List.mem_append.1 h with h | h
    · exact ⟨s, i, List.mem_cons_self, (List.mem_singleton.1 h).symm⟩
    · obtain ⟨s', j, hj, hx⟩ := ih h
      exact ⟨s', j, List.mem_cons_of_mem _ hj, hx⟩

section Projection

variable {step : S → I → S} {step' : T → J → T} {Inv : S → Prop} (π : S → T) (ι : S → I → J)

/-- **Projection rule.** A component of a composite machine makes a run of its own. -/
theorem run_proj (hinv : ∀ s i, Inv s → Inv (step s i)) (h : ∀ s i, Inv s → π (step s i) = step' (π s) (ι s i))
    {s : S} (h0 : Inv s) (ins : List I) : π (run step s ins) = run step' (π s) (inputs step ι s ins) := by
  induction ins generalizing s with
  | nil => rfl
  | cons i ins ih => simp only [run_cons, ih (hinv s i h0), h s i h0, inputs, collect_cons, List.singleton_append]

theorem collect_proj (hinv : ∀ s i, Inv s → Inv (step s i)) (h : ∀ s i, Inv s → π (step s i) = step' (π s) (ι s i))
    {f : S → I → List E} {f' : T → J → List E} (hf : ∀ s i, Inv s → f s i = f' (π s) (ι s i)) {s : S} (h0 : Inv s)
    (ins : List I) : collect step f s ins = collect step' f' (π s) (inputs step ι s ins) := by
  induction ins generalizing s with
  | nil => rfl
  | cons i ins ih =>
    simp only [collect_cons, ih (hinv s i h0), h s i h0, hf s i h0, inputs, List.singleton_append]

theorem always_proj (hinv : ∀ s i, Inv s → Inv (step s i)) (h : ∀ s i, Inv s → π (step s i) = step' (π s) (ι s i))
    {P : S → I → Prop} {P' : T → J → Prop} (hP : ∀ s i, Inv s → P s i → P' (π s) (ι s i)) {s : S} (h0 : Inv s)
    {ins : List I} (hs : Always step P s ins) : Always step' P' (π s) (inputs step ι s ins) := by
  induction ins generalizing s with
  | nil => trivial
  | cons i ins ih =>
    simp only [inputs, collect_cons, List.singleton_append, always_cons]
    exact ⟨hP s i h0 hs.1, by rw [← h s i h0]; exact ih (hinv s i h0) hs.2⟩

end Projection

end AegisSoc.Machine
