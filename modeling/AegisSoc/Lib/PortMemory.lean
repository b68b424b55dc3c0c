/-
One atomic memory shared by several ports, with at most one request outstanding: the purpose of a memory front-end,
stated without its timing.

A request takes effect at the moment it is accepted: a write replaces one line, a read fixes the value of its answer.
Later the answer is handed over on the port that asked (`Ev.respond`). `Trace` is the language of the event sequences
this memory can show. `Trace.answers_eq` reads such a sequence back: the responses, followed by the answer still
owed, are the answers of the accepted requests applied one by one, in acceptance order.
-/
import AegisSoc.Lib.Machine

namespace AegisSoc.PortMemory

open Machine

variable {P Q L D : Type*}

/-- what a request does to the memory: it reads or writes one line -/
structure Access (L D : Type*) where
  line : L
  data : D
  write : Bool

/-- the memory after an access -/
def apply [DecidableEq L] (m : L → D) (a : Access L D) : L → D :=
  if a.write then Function.update m a.line a.data else m

/-- the answer to an access: the line for a read, zero for a write -/
def answer [Zero D] (m : L → D) (a : Access L D) : D := if a.write then 0 else m a.line

/-- the memory and the answer still owed, with the port it is owed to -/
structure St (P L D : Type*) where
  mem : L → D
  pending : Option (P × D)

inductive Ev (P Q D : Type*) where
  | accept (p : P) (q : Q)
  | respond (p : P) (d : D)

section

variable [DecidableEq L] [Zero D] (acc : Q → Access L D)

def next (s : St P L D) : Ev P Q D → St P L D
  | .accept p q => ⟨apply s.mem (acc q), some (p, answer s.mem (acc q))⟩
  | .respond _ _ => { s with pending := none }

/-- the events the memory can show: one request at a time, and the answer owed, on the port it is owed to -/
def Enabled (s : St P L D) : Ev P Q D → Prop
  | .accept _ _ => s.pending = none
  | .respond p d => s.pending = some (p, d)

/-- the event sequences the memory can show from `s` -/
def Trace (s : St P L D) : List (Ev P Q D) → Prop
  | [] => True
  | e :: es => Enabled s e ∧ Trace (next acc s e) es

/-- the memory after an event sequence -/
def after (s : St P L D) (es : List (Ev P Q D)) : St P L D := es.foldl (next acc) s

/-- the memory after the accesses `qs`, one by one -/
def memAfter (m : L → D) (qs : List Q) : L → D := qs.foldl (fun m q => apply m (acc q)) m

/-- the answers to requests applied one by one -/
def answers (m : L → D) : List (P × Q) → List (P × D)
  | [] => []
  | (p, q) :: l => (p, answer m (acc q)) :: answers (apply m (acc q)) l

end

/-- the accepted requests, in acceptance order -/
def accepted : List (Ev P Q D) → List (P × Q)
  | [] => []
  | .accept p q :: es => (p, q) :: accepted es
  | .respond _ _ :: es => accepted es

/-- the responses, in order -/
def responses : List (Ev P Q D) → List (P × D)
  | [] => []
  | .accept _ _ :: es => responses es
  | .respond p d :: es => (p, d) :: responses es

theorem accepted_append (a b : List (Ev P Q D)) : accepted (a ++ b) = accepted a ++ accepted b := by
  induction a with
  | nil => rfl
  | cons e a ih => cases e <;> simp [accepted, ih]

theorem mem_accepted {es : List (Ev P Q D)} {p : P} {q : Q} : (p, q) ∈ accepted es ↔ .accept p q ∈ es := by
  induction es with
  | nil => simp [accepted]
  | cons e es ih => cases e <;> simp [accepted, ih]

section

variable [DecidableEq L] [Zero D] {acc : Q → Access L D}

@[simp] theorem after_nil (s : St P L D) : after acc s ([] : List (Ev P Q D)) = s := rfl

@[simp] theorem after_cons (s : St P L D) (e : Ev P Q D) (es : List (Ev P Q D)) :
    after acc s (e :: es) = after acc (next acc s e) es := rfl

theorem after_append (s : St P L D) (a b : List (Ev P Q D)) :
    after acc s (a ++ b) = after acc (after acc s a) b := by
  simp [after, List.foldl_append]

theorem trace_append (s : St P L D) (a b : List (Ev P Q D)) :
    Trace acc s (a ++ b) ↔ Trace acc s a ∧ Trace acc (after acc s a) b := by
  induction a generalizing s with
  | nil => simp [Trace]
  | cons e a ih => simp [Trace, ih, and_assoc]

/-- the memory's contents depend on the accepted requests only -/
theorem after_mem (s : St P L D) (es : List (Ev P Q D)) :
    (after acc s es).mem = memAfter acc s.mem ((accepted es).map Prod.snd) := by
  induction es generalizing s with
  | nil => rfl
  | cons e es ih => cases e <;> simp [ih, next, accepted, memAfter]

/-- **Reading a trace back.** The responses, followed by the answer still owed, are the answers of the accepted
requests applied one by one. -/
theorem Trace.answers_eq {s : St P L D} {es : List (Ev P Q D)} (h : Trace acc s es) :
    s.pending.toList ++ answers acc s.mem (accepted es) = responses es ++ (after acc s es).pending.toList := by
  induction es generalizing s with
  | nil => simp [accepted, responses, answers]
  | cons e es ih =>
    obtain ⟨he, hes⟩ := h
    have ih := ih hes
    cases e with
    | accept p q =>
      have hp : s.pending = none := he
      rw [hp, after_cons]
      exact ih
    | respond p d =>
      have hp : s.pending = some (p, d) := he
      rw [hp, after_cons]
      exact congrArg ((p, d) :: ·) ih

theorem answers_length (m : L → D) (l : List (P × Q)) : (answers acc m l).length = l.length := by
  induction l generalizing m with
  | nil => rfl
  | cons x l ih => simp [answers, ih]

theorem answers_append (m : L → D) (l l' : List (P × Q)) :
    answers acc m (l ++ l') = answers acc m l ++ answers acc (memAfter acc m (l.map Prod.snd)) l' := by
  induction l generalizing m with
  | nil => rfl
  | cons x l ih => simp [answers, ih, memAfter]

/-- the answer owed is that of the last accepted request, in the memory left by all the earlier ones -/
theorem Trace.pending_last {m : L → D} {es : List (Ev P Q D)} (h : Trace acc ⟨m, none⟩ es) {p : P} {d : D}
    (hp : (after acc ⟨m, none⟩ es).pending = some (p, d)) :
    ∃ before q, accepted es = before ++ [(p, q)] ∧ (responses es).length = before.length ∧
      d = answer (memAfter acc m (before.map Prod.snd)) (acc q) := by
  have heq : answers acc m (accepted es) = responses es ++ [(p, d)] := by
    simpa [hp] using h.answers_eq
  have hlen : (accepted es).length = (responses es).length + 1 := by
    simpa [answers_length] using congrArg List.length heq
  obtain ⟨before, ⟨p', q⟩, hacc⟩ : ∃ before x, accepted es = before ++ [x] := by
    rcases List.eq_nil_or_concat (accepted es) with hn | ⟨l, x, hl⟩
    · simp [hn] at hlen
    · exact ⟨l, x, by simpa using hl⟩
  have hb : (responses es).length = before.length := by simp [hacc] at hlen; omega
  rw [hacc, answers_append] at heq
  have hlast := (List.append_inj heq (by rw [answers_length, hb])).2
  simp only [answers, List.cons.injEq, Prod.mk.injEq, and_true] at hlast
  exact ⟨before, q, by rw [hacc, hlast.1], hb, hlast.2.symm⟩

/-- nothing is owed exactly when every accepted request has been answered -/
theorem Trace.pending_none_iff {m : L → D} {es : List (Ev P Q D)} (h : Trace acc ⟨m, none⟩ es) :
    (after acc ⟨m, none⟩ es).pending = none ↔ (accepted es).length = (responses es).length := by
  have hlen := congrArg List.length h.answers_eq
  cases hp : (after acc ⟨m, none⟩ es).pending <;> simp [hp, answers_length] at hlen ⊢ <;> omega

/-- port `p` has one accepted request that is not answered -/
def Outstanding [DecidableEq P] (p : P) (es : List (Ev P Q D)) : Prop :=
  (accepted es).countP (fun x => x.1 = p) = (responses es).countP (fun x => x.1 = p) + 1

/-- the number of answers owed to port `p` -/
def owes [DecidableEq P] (p : P) (s : St P L D) : ℕ := s.pending.elim 0 fun x => if x.1 = p then 1 else 0

/-- requests and responses of one port, counted -/
theorem Trace.count [DecidableEq P] {s : St P L D} {es : List (Ev P Q D)} (h : Trace acc s es) (p : P) :
    (accepted es).countP (fun x => x.1 = p) + owes p s =
      (responses es).countP (fun x => x.1 = p) + owes p (after acc s es) := by
  induction es generalizing s with
  | nil => rfl
  | cons e es ih =>
    obtain ⟨he, hes⟩ := h
    rw [after_cons]
    have ih := ih hes
    cases e with
    | accept p' q =>
      have hp : owes p s = 0 := by rw [owes, show s.pending = none from he]; rfl
      have hp' : owes p (next acc s (.accept p' q)) = if p' = p then 1 else 0 := rfl
      simp only [accepted, responses, List.countP_cons, decide_eq_true_eq]
      omega
    | respond p' d =>
      have hp : owes p s = if p' = p then 1 else 0 := by rw [owes, show s.pending = some (p', d) from he]; rfl
      have hp' : owes p (next acc s (.respond p' d)) = 0 := rfl
      simp only [accepted, responses, List.countP_cons, decide_eq_true_eq]
      omega

/-- a port without a request outstanding has got all its answers -/
theorem Trace.settled [DecidableEq P] {m : L → D} {es : List (Ev P Q D)} (h : Trace acc ⟨m, none⟩ es) {p : P}
    (hp : ¬ Outstanding p es) :
    (accepted es).countP (fun x => x.1 = p) = (responses es).countP (fun x => x.1 = p) := by
  have hcount := h.count p
  have h0 : owes p (⟨m, none⟩ : St P L D) = 0 := rfl
  have hle : owes p (after acc ⟨m, none⟩ es) ≤ 1 := by
    unfold owes
    cases (after acc ⟨m, none⟩ es).pending with
    | none => exact Nat.zero_le _
    | some x => simp only [Option.elim]; split_ifs <;> omega
  unfold Outstanding at hp
  omega

/-- from a memory that owes nothing, a port has a request outstanding exactly when it is owed the answer -/
theorem Trace.outstanding_iff [DecidableEq P] {m : L → D} {es : List (Ev P Q D)} (h : Trace acc ⟨m, none⟩ es) {p : P} :
    Outstanding p es ↔ ∃ d, (after acc ⟨m, none⟩ es).pending = some (p, d) := by
  have hcount := h.count p
  have h0 : owes p (⟨m, none⟩ : St P L D) = 0 := rfl
  unfold Outstanding
  cases hp : (after acc ⟨m, none⟩ es).pending with
  | none =>
    have h1 : owes p (after acc ⟨m, none⟩ es) = 0 := by rw [owes, hp]; rfl
    simp only [reduceCtorEq, exists_const, iff_false]
    omega
  | some x =>
    have h1 : owes p (after acc ⟨m, none⟩ es) = if x.1 = p then 1 else 0 := by rw [owes, hp]; rfl
    constructor
    · intro ho
      have hx : x.1 = p := by
        by_contra hne
        rw [if_neg hne] at h1
        omega
      exact ⟨x.2, by rw [← hx]⟩
    · rintro ⟨d, hd⟩
      rw [if_pos (by rw [Option.some.inj hd])] at h1
      omega

/-- **Refinement rule.** If in every cycle that meets `C` a machine shows events the memory can show, and the relation is
kept, then so it is over every run that always meets `C`. -/
theorem trace_run_of {S I : Type*} {step : S → I → S} {ev : S → I → List (Ev P Q D)} {C : S → I → Prop}
    (Rel : S → St P L D → Prop)
    (hstep : ∀ s α i, Rel s α → C s i → Trace acc α (ev s i) ∧ Rel (step s i) (after acc α (ev s i)))
    {s : S} {α : St P L D} (h : Rel s α) {ins : List I} (hC : Always step C s ins) :
    Trace acc α (collect step ev s ins) ∧ Rel (run step s ins) (after acc α (collect step ev s ins)) := by
  induction ins generalizing s α with
  | nil => exact ⟨trivial, h⟩
  | cons i ins ih =>
    obtain ⟨ht, hr⟩ := hstep s α i h hC.1
    obtain ⟨ht', hr'⟩ := ih hr hC.2
    rw [collect_cons, trace_append, after_append]
    exact ⟨⟨ht, ht'⟩, hr'⟩

theorem trace_run {S I : Type*} {step : S → I → S} {ev : S → I → List (Ev P Q D)} (Rel : S → St P L D → Prop)
    (hstep : ∀ s α i, Rel s α → Trace acc α (ev s i) ∧ Rel (step s i) (after acc α (ev s i)))
    {s : S} {α : St P L D} (h : Rel s α) (ins : List I) :
    Trace acc α (collect step ev s ins) ∧ Rel (run step s ins) (after acc α (collect step ev s ins)) :=
  trace_run_of Rel (fun s α i hr _ => hstep s α i hr) h (always_true _ _ _)

end

end AegisSoc.PortMemory
