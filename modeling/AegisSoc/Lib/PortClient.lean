/-
Clients of a memory port. A client is a synchronous machine that drives one request channel and takes one response
channel; its port outputs do not depend on what it sees of the port in the same cycle.

`step` attaches a client to a memory as seen from its port: the contents, and the answer the memory owes to the client.
The memory accepts and answers whenever it likes (`grant`, `deliver`), shows anything on the response bus in between
(`bus`), and other agents write lines in any cycle (`others`, before the client's own access). Nothing is assumed
about the memory beyond that: a request takes effect when it is accepted, one request is outstanding at a time and
each gets one response.

What holds of every attached run holds of the client wherever it is built in: `owed` and `writesOf` are the view that
port `p` has of a memory shared by several ports.
-/
import AegisSoc.Lib.PortMemory

namespace AegisSoc.PortClient

open Machine PortMemory

variable {P R X Q L D : Type*}

/-- what a client sees of its port in one cycle -/
structure PortIn (D : Type*) where
  reqReady : Bool
  respValid : Bool
  respBits : D
deriving DecidableEq, Repr

/-- a client with registers `R` and further inputs `X` -/
structure Client (R X Q D : Type*) where
  reqValid : R → X → Bool
  req : R → X → Q
  respReady : R → X → Bool
  next : R → X → PortIn D → R

/-- a client and the memory as seen from its port -/
structure Reg (R L D : Type*) where
  own : R
  mem : L → D
  owed : Option D

structure In (X L D : Type*) where
  ext : X
  grant : Bool
  deliver : Bool
  bus : D
  others : List (L × D)

def portIn (s : Reg R L D) (i : In X L D) : PortIn D where
  reqReady := i.grant && s.owed.isNone
  respValid := i.deliver && s.owed.isSome
  respBits := if i.deliver then s.owed.getD i.bus else i.bus

/-- a response on the port is the one owed -/
theorem owed_of_respValid {s : Reg R L D} {i : In X L D} (h : (portIn s i).respValid = true) :
    s.owed = some (portIn s i).respBits := by
  simp only [portIn, Bool.and_eq_true] at h
  obtain ⟨d, hd⟩ := Option.isSome_iff_exists.1 h.2
  simp [portIn, h.1, hd]

section

variable (c : Client R X Q D)

/-- the client's request is accepted in this cycle -/
def accepts (s : Reg R L D) (i : In X L D) : Bool := c.reqValid s.own i.ext && (portIn s i).reqReady

/-- the client takes its response in this cycle -/
def takes (s : Reg R L D) (i : In X L D) : Bool := (portIn s i).respValid && c.respReady s.own i.ext

end

section

variable [DecidableEq L]

/-- the memory after the writes `ws`, one by one -/
def writes (m : L → D) (ws : List (L × D)) : L → D := ws.foldl (fun m w => Function.update m w.1 w.2) m

@[simp] theorem writes_nil (m : L → D) : writes m [] = m := rfl

theorem writes_of_ne (m : L → D) (ws : List (L × D)) (k : L) (h : ∀ w ∈ ws, w.1 ≠ k) : writes m ws k = m k := by
  induction ws generalizing m with
  | nil => rfl
  | cons w ws ih =>
    exact (ih _ fun y hy => h y (List.mem_cons_of_mem _ hy)).trans
      (Function.update_of_ne (h w List.mem_cons_self).symm _ _)

variable [Zero D] (c : Client R X Q D) (acc : Q → Access L D)

/-- the request of this cycle as an access to the memory -/
def reqOf (s : Reg R L D) (i : In X L D) : Access L D := acc (c.req s.own i.ext)

def step (s : Reg R L D) (i : In X L D) : Reg R L D where
  own := c.next s.own i.ext (portIn s i)
  mem :=
    if accepts c s i then apply (writes s.mem i.others) (reqOf c acc s i) else writes s.mem i.others
  owed :=
    if accepts c s i then some (answer (writes s.mem i.others) (reqOf c acc s i))
    else if takes c s i then none
    else s.owed

/-- the three things the port can do in a cycle: accept the request, hand over the answer, or nothing -/
theorem port_cases (s : Reg R L D) (i : In X L D) :
    (accepts c s i = true ∧ takes c s i = false ∧ s.owed = none ∧
      (step c acc s i).owed = some (answer (writes s.mem i.others) (reqOf c acc s i))) ∨
    (accepts c s i = false ∧ takes c s i = true ∧ s.owed = some (portIn s i).respBits ∧ (step c acc s i).owed = none) ∨
    (accepts c s i = false ∧ takes c s i = false ∧ (step c acc s i).owed = s.owed) := by
  cases ho : s.owed with
  | none =>
    have ht : takes c s i = false := by simp [takes, portIn, ho]
    cases ha : accepts c s i with
    | true => exact .inl ⟨rfl, ht, rfl, by simp [step, ha]⟩
    | false => exact .inr (.inr ⟨rfl, ht, by simp [step, ha, ht, ho]⟩)
  | some d =>
    have ha : accepts c s i = false := by simp [accepts, portIn, ho]
    cases ht : takes c s i with
    | true =>
      have hv : (portIn s i).respValid = true := ((Bool.and_eq_true _ _).mp ht).1
      exact .inr (.inl ⟨ha, rfl, ho ▸ owed_of_respValid hv, by simp [step, ha, ht]⟩)
    | false => exact .inr (.inr ⟨ha, rfl, by simp [step, ha, ht, ho]⟩)

/-- a client that knows from its registers whether it has a request outstanding, and is ready for a response exactly then -/
structure Waiting (c : Client R X Q D) (waits : R → Bool) : Prop where
  ready : ∀ r x, c.respReady r x = waits r
  accepted : ∀ r x m, c.reqValid r x = true → m.reqReady = true → waits (c.next r x m) = true
  taken : ∀ r x m, waits r = true → m.respValid = true → waits (c.next r x m) = false
  held : ∀ r x m, (c.reqValid r x && m.reqReady) = false → (m.respValid && waits r) = false →
    waits (c.next r x m) = waits r

/-- such a client waits exactly while it is owed a response -/
theorem Waiting.step {c : Client R X Q D} {waits : R → Bool} (h : Waiting c waits) {s : Reg R L D} (i : In X L D)
    (hs : s.owed.isSome = waits s.own) : (step c acc s i).owed.isSome = waits (step c acc s i).own := by
  rcases port_cases c acc s i with ⟨ha, -, -, ho⟩ | ⟨-, ht, -, ho⟩ | ⟨ha, ht, ho⟩
  · obtain ⟨hv, hr⟩ := (Bool.and_eq_true _ _).mp ha
    rw [ho]
    exact (h.accepted _ _ _ hv hr).symm
  · obtain ⟨hv, hr⟩ := (Bool.and_eq_true _ _).mp ht
    rw [ho]
    exact (h.taken _ _ _ (h.ready _ _ ▸ hr) hv).symm
  · rw [ho, hs]
    exact (h.held _ _ _ ha (h.ready _ _ ▸ ht)).symm

/-- no other agent writes the line `k` in this cycle -/
def Spares (k : L) (i : In X L D) : Prop := ∀ w ∈ i.others, w.1 ≠ k

instance (k : L) (i : In X L D) : Decidable (Spares k i) := inferInstanceAs (Decidable (∀ w ∈ i.others, w.1 ≠ k))

end

/-! ## The view of one port of a shared memory -/

section

variable [DecidableEq P]

/-- the answer owed to port `p` -/
def owed (p : P) (α : St P L D) : Option D := α.pending.bind fun x => if x.1 = p then some x.2 else none

theorem owed_eq_some {p : P} {α : St P L D} {d : D} : owed p α = some d ↔ α.pending = some (p, d) := by
  constructor
  · intro h
    obtain ⟨⟨p', d'⟩, hx, hd⟩ := Option.bind_eq_some_iff.1 h
    simp only [Option.ite_none_right_eq_some, Option.some.injEq] at hd
    rw [hx, hd.1, hd.2]
  · intro h
    simp [owed, h]

/-- the lines written by the other ports among the events `es` -/
def writesOf (acc : Q → Access L D) (p : P) (es : List (Ev P Q D)) : List (L × D) :=
  (accepted es).filterMap fun x =>
    if x.1 ≠ p ∧ (acc x.2).write = true then some ((acc x.2).line, (acc x.2).data) else none

end

end AegisSoc.PortClient
