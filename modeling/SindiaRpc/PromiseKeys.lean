import SindiaRpc.RpcProcess
import SindiaRpc.ListUpdates

/-!
# Which call a promise belongs to

In every run, however calls and responses interleave, a promise in the table
was put there by a call that waits under its key or has returned since, and
only such a promise has been settled. What has been settled never changes.
-/
namespace SindiaRpc.PromiseKeys
open MessageFrames DispatcherTable PromiseTables RpcChannel RpcProcess GuardedRuns ListUpdates

variable {κ : Type*}

/-- Invocation `u` has put its promise under `k`. -/
def Owns (s : Process κ) (k : UInt32) (u : ℕ) : Prop :=
  ∃ c, s.calls[u]? = some c ∧ c.pc.registered = true ∧ c.callid = k

structure Keyed (s : Process κ) : Prop where
  entry : ∀ k u, s.channel.prommap.find k = some u → Owns s k u
  settled : ∀ u, s.channel.prommap.states u ≠ .pending → ∃ k, Owns s k u
  ready : ∀ u c, s.calls[u]? = some c → c.pc = .get ∨ c.pc = .erase →
    s.channel.prommap.states u ≠ .pending

section Step
variable {H : Bytes → ℕ} {o : ByteOrder} {s s' : Process κ} {e : Event κ} {t u : ℕ}
  {c c' : Invocation} {k : UInt32}

theorem asked_of_registered {pc : Pc} (h : pc.registered = true) : pc.asked = true := by
  cases pc <;> simp_all [Pc.registered,Pc.asked]

/-- The owner, looked up. -/
theorem Owns.of_call (h : Owns s k u) (hc : s.calls[u]? = some c) :
    c.pc.registered = true ∧ c.callid = k := by
  obtain ⟨d,hd,hown⟩ := h
  obtain rfl := Option.some.inj (hd.symm.trans hc)
  exact hown

theorem Owns.statement (h : Owns s k u) (hc : s.calls[t]? = some c)
    (hst : Statement t s.channel c s'.channel c') (hcalls : s'.calls = s.calls.set t c') :
    Owns s' k u := by
  obtain ⟨d,hd,hreg,hk⟩ := h
  by_cases hu : u = t
  · subst hu
    obtain rfl := Option.some.inj (hd.symm.trans hc)
    refine ⟨c',?_,hst.registered hreg,?_⟩
    · rw [hcalls]
      exact getElem?_set_of_eq_some hc
    · rw [← hk]
      exact (hst.asked (asked_of_registered hreg)).2.1
  · refine ⟨d,?_,hreg,hk⟩
    rw [hcalls,List.getElem?_set_ne (Ne.symm hu)]
    exact hd

theorem Owns.step (h : Owns s k u) (hs : RpcProcess.step H o s e = some s') : Owns s' k u := by
  cases step_change hs with
  | other e channel calls | connect conn channel calls => exact h.imp fun c hc => by rwa [calls]
  | enter name req res channel calls =>
      obtain ⟨c,hc,hreg⟩ := h
      rw [Owns,calls]
      exact ⟨c,getElem?_concat_of_eq_some hc,hreg⟩
  | statement e t c c' event mem done calls => exact h.statement mem done calls
  | response k msg prom value type find data pending channel calls =>
      exact h.imp fun c hc => by rwa [calls]

/-- What has been settled stays. -/
theorem settled_step (hu : s.channel.prommap.states u ≠ .pending)
    (hs : RpcProcess.step H o s e = some s') :
    s'.channel.prommap.states u = s.channel.prommap.states u := by
  cases step_change hs with
  | other e channel calls | connect conn channel calls | enter name req res channel calls =>
      rw [channel]
  | statement e t c c' event mem done calls => exact done.settled hu
  | response k msg prom value type find data pending channel calls =>
      rw [channel]
      apply PromiseTable.states_fulfil_of_ne
      intro hprom
      exact hu (hprom ▸ pending)

/-- The entries of the table after a statement. -/
theorem Statement.find (hst : Statement t s.channel c s'.channel c')
    (hfind : s'.channel.prommap.find k = some u) :
    s.channel.prommap.find k = some u ∨
      (u = t ∧ k = c.callid ∧ c.pc = .register ∧ c'.pc = .wait) := by
  generalize s'.channel = ch' at hst hfind
  cases hst with
  | register pc =>
      by_cases hk : k = c.callid
      · right
        rw [hk,PromiseTable.find_assign] at hfind
        exact ⟨(Option.some.inj hfind).symm,hk,pc,rfl⟩
      · left
        rwa [PromiseTable.find_assign_of_ne hk] at hfind
  | erase pc =>
      left
      by_cases hk : k = c.callid
      · rw [hk,PromiseTable.find_erase] at hfind
        cases hfind
      · rwa [PromiseTable.find_erase_of_ne hk] at hfind
  | stay | refuse _ | prepare _ _ _ _ | number _ _ _ | finish _ _ _ _ _ | ask _ | timeout _ _
  | ready _ _ | get _ _ _ | throw _ _ => exact Or.inl hfind

/-- A statement settles a promise only by taking it out of the table. -/
theorem Statement.settles (hst : Statement t s.channel c s'.channel c')
    (hu : s'.channel.prommap.states u ≠ .pending) :
    s.channel.prommap.states u ≠ .pending ∨ ∃ k, s.channel.prommap.find k = some u := by
  generalize s'.channel = ch' at hst hu
  cases hst with
  | register pc | erase pc =>
      by_cases hfind : s.channel.prommap.find c.callid = some u
      · exact Or.inr ⟨_,hfind⟩
      · left
        rwa [← PromiseTable.states_discard_of_ne hfind]
  | stay | refuse _ | prepare _ _ _ _ | number _ _ _ | finish _ _ _ _ _ | ask _ | timeout _ _
  | ready _ _ | get _ _ _ | throw _ _ => exact Or.inl hu

/-- A call gets to its value only past a settled promise. -/
theorem Statement.ready {ch ch' : Rpcchannel κ} (hst : Statement t ch c ch' c')
    (hc : c'.pc = .get ∨ c'.pc = .erase) :
    (c.pc = .get ∨ c.pc = .erase) ∨ ch.prommap.states t ≠ .pending := by
  cases hst with
  | stay => exact Or.inl hc
  | prepare pc pc' msg after | finish pc pc' msg after id =>
      rcases hc with hc | hc
      · rw [show pc' = .get from hc] at after
        cases after
      · rw [show pc' = .erase from hc] at after
        cases after
  | ready pc done => exact Or.inr done
  | get pc value done => exact Or.inl (Or.inl pc)
  | refuse _ | number _ _ _ | ask _ | register _ | timeout _ _ | throw _ _ | erase _ =>
      rcases hc with hc | hc <;> cases hc

theorem Keyed.entry_step (h : Keyed s) (hs : RpcProcess.step H o s e = some s')
    (hfind : s'.channel.prommap.find k = some u) : Owns s' k u := by
  cases step_change hs with
  | other e channel calls | connect conn channel calls | enter name req res channel calls =>
      rw [channel] at hfind
      exact (h.entry k u hfind).step hs
  | statement e t c c' event mem done calls =>
      rcases Statement.find done hfind with hold | ⟨rfl,rfl,hpc,hpc'⟩
      · exact (h.entry k u hold).step hs
      · refine ⟨c',?_,by rw [hpc']; rfl,(done.asked (by rw [hpc]; rfl)).2.1⟩
        rw [calls]
        exact getElem?_set_of_eq_some mem
  | response k' msg prom value type find data pending channel calls =>
      rw [channel] at hfind
      exact (h.entry k u hfind).step hs

theorem Keyed.settled_entry (h : Keyed s) (hs : RpcProcess.step H o s e = some s')
    (hu : s'.channel.prommap.states u ≠ .pending) : ∃ k, Owns s' k u := by
  have hold : s.channel.prommap.states u ≠ .pending ∨
      ∃ k, s.channel.prommap.find k = some u := by
    cases step_change hs with
    | other e channel calls | connect conn channel calls | enter name req res channel calls =>
        rw [channel] at hu
        exact Or.inl hu
    | statement e t c c' event mem done calls => exact Statement.settles done hu
    | response k msg prom value type find data pending channel calls =>
        by_cases hprom : u = prom
        · exact Or.inr ⟨_,hprom ▸ find⟩
        · rw [channel] at hu
          rw [PromiseTable.states_fulfil_of_ne _ value hprom] at hu
          exact Or.inl hu
  rcases hold with hsettled | ⟨k,hfind⟩
  · exact (h.settled u hsettled).imp fun k hown => hown.step hs
  · exact ⟨k,(h.entry k u hfind).step hs⟩

theorem Keyed.ready_step (h : Keyed s) (hs : RpcProcess.step H o s e = some s')
    (hc : s'.calls[u]? = some c) (hpc : c.pc = .get ∨ c.pc = .erase) :
    s'.channel.prommap.states u ≠ .pending := by
  have hold : s.channel.prommap.states u ≠ .pending := by
    cases step_change hs with
    | other e channel calls | connect conn channel calls
    | response k msg prom value type find data pending channel calls =>
        rw [calls] at hc
        exact h.ready u c hc hpc
    | enter name req res channel calls =>
        rw [calls] at hc
        rcases getElem?_concat_cases hc with hc | ⟨_,rfl⟩
        · exact h.ready u c hc hpc
        · rcases hpc with hpc | hpc <;> cases hpc
    | statement e t d d' event mem done calls =>
        rw [calls] at hc
        rcases getElem?_set_cases hc with ⟨rfl,rfl⟩ | ⟨_,hc⟩
        · rcases Statement.ready done hpc with hold | hold
          · exact h.ready u d mem hold
          · exact hold
        · exact h.ready u c hc hpc
  rwa [settled_step hold hs]

theorem Keyed.step (h : Keyed s) (hs : RpcProcess.step H o s e = some s') : Keyed s' :=
  ⟨fun _ _ => h.entry_step hs,fun _ => h.settled_entry hs,fun _ _ => h.ready_step hs⟩

theorem init_keyed (conn : Option κ) : Keyed (init conn) := by
  refine ⟨?_,?_,?_⟩
  · intro k u hfind
    cases hfind
  · intro u hu
    exact absurd rfl hu
  · intro u c hc
    cases hc

/-- The promises of every run from the start. -/
theorem run_keyed {conn : Option κ} {es : List (Event κ)}
    (h : exec (RpcProcess.step H o) (init conn) es = some s) : Keyed s := by
  apply exec_preserves (RpcProcess.step H o) (P := Keyed)
    (fun u e v hu hv => hu.step hv) (init_keyed conn) h

end Step
end SindiaRpc.PromiseKeys
