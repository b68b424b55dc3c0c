/-
Transactions of a machine that has at most one of them in progress.

`Phase s p` says that in state `s` the machine has shown the events `p` of the transaction in progress; `p` is empty between
transactions. If every cycle adds its events to `p` or completes a transaction (`Steps`), then
- `log_run`: the events of a run are whole transactions, one after another, and those of the one in progress;
- `finishes`: the transaction in progress is completed by every run with enough unstalled cycles.
-/
import AegisSoc.Lib.Machine

namespace AegisSoc.Transactions

open Machine

variable {S I E T : Type*}

/-- every cycle adds its events to the transaction in progress, or completes it -/
def Steps (step : S → I → S) (ev : S → I → List E) (events : T → List E) (Phase : S → List E → Prop) : Prop :=
  ∀ s p i, Phase s p → Phase (step s i) (p ++ ev s i) ∨ ∃ t, events t = p ++ ev s i ∧ Phase (step s i) []

variable {step : S → I → S} {ev : S → I → List E} {events : T → List E} {Phase : S → List E → Prop}

theorem log_run (h : Steps step ev events Phase) {s : S} {p : List E} (hp : Phase s p) (ins : List I) :
    ∃ (txs : List T) (p' : List E), p ++ collect step ev s ins = txs.flatMap events ++ p' ∧ Phase (run step s ins) p' := by
  induction ins generalizing s p with
  | nil => exact ⟨[], p, by simp, hp⟩
  | cons i ins ih =>
    rw [collect_cons, ← List.append_assoc]
    rcases h s p i hp with hp' | ⟨t, hev, hp'⟩
    · exact ih hp'
    · obtain ⟨txs, p', hes, hphase⟩ := ih hp'
      rw [List.nil_append] at hes
      refine ⟨t :: txs, p', ?_, hphase⟩
      rw [hes, ← hev, List.flatMap_cons, List.append_assoc]

/-- `left` bounds the number of unstalled cycles to the end of the transaction -/
theorem finishes (h : Steps step ev events Phase) {left : S → ℕ} {unstalled : S → I → List Unit}
    (hpos : ∀ s p, Phase s p → p ≠ [] → 0 < left s)
    (hleft : ∀ s p i, Phase s p → p ≠ [] → left (step s i) + (unstalled s i).length ≤ left s) {s : S} {p : List E}
    (hp : Phase s p) (hne : p ≠ []) {more : List I} (hmore : left s ≤ (collect step unstalled s more).length) :
    ∃ t, p <+: events t ∧ events t <+: p ++ collect step ev s more := by
  induction more generalizing s p with
  | nil =>
    have := hpos s p hp hne
    simp only [collect_nil, List.length_nil] at hmore
    omega
  | cons i more ih =>
    have hstep := hleft s p i hp hne
    rw [collect_cons, List.length_append] at hmore
    rw [collect_cons, ← List.append_assoc]
    rcases h s p i hp with hp' | ⟨t, hev, -⟩
    · obtain ⟨t, hbegin, hend⟩ := ih hp' (by simp [hne]) (by omega)
      exact ⟨t, (List.prefix_append _ _).trans hbegin, hend⟩
    · exact ⟨t, hev ▸ List.prefix_append _ _, hev ▸ List.prefix_append _ _⟩

end AegisSoc.Transactions
