import SindiaRpc.PromiseKeys
import SindiaRpc.TicketCounters

/-!
# Call ids under concurrency

`Call` puts `++m_callid` into its request and passes `m_callid`, read again
after `Write`, to `GetResponse`. The two agree as long as no other call
increments the counter in between. Then every call waits under its own id, no
two calls wait under one key, and no promise is destroyed while its call waits.
-/
namespace SindiaRpc.CallCorrelation
open MessageFrames DispatcherTable PromiseTables RpcChannel RpcProcess GuardedRuns PromiseKeys
  TicketCounters ListUpdates

variable {κ : Type*}

/-- What a caller relies on: its own id is the one it waits for, no other call
waits for that one, and `get` does not throw. -/
structure Correlated (s : Process κ) : Prop where
  own : ∀ c ∈ s.calls, c.pc.waiting = true → c.callid = c.msg.header.id
  apart : s.calls.Pairwise fun c d =>
    c.pc.waiting = true → d.pc.waiting = true → c.callid ≠ d.callid
  unbroken : ∀ c ∈ s.calls, c.pc ≠ .threw

instance (s : Process κ) : Decidable (Correlated s) :=
  decidable_of_iff ((∀ c ∈ s.calls, c.pc.waiting = true → c.callid = c.msg.header.id) ∧
      s.calls.Pairwise (fun c d =>
        c.pc.waiting = true → d.pc.waiting = true → c.callid ≠ d.callid) ∧
      ∀ c ∈ s.calls, c.pc ≠ .threw)
    ⟨fun h => ⟨h.1,h.2.1,h.2.2⟩,fun h => ⟨h.own,h.apart,h.unbroken⟩⟩

/-- No call increments the counter while another is between its own increment
and its second reading. -/
def Calm (s : Process κ) : Event κ → Prop
  | .run t => ∀ c ∈ s.calls[t]?, c.pc = .setId → ∀ d ∈ s.calls, d.pc.numbered = false
  | _ => True

instance (s : Process κ) : ∀ e, Decidable (Calm s e)
  | .run t =>
      match h : s.calls[t]? with
      | none => .isTrue (by simp [Calm,h])
      | some c => decidable_of_iff (c.pc = .setId → ∀ d ∈ s.calls, d.pc.numbered = false)
          (by simp [Calm,h])
  | .reghandler _ _ | .setConnection _ | .call _ _ _ | .expire _ | .receive _ _ => .isTrue trivial

/-! ### Ids are tickets of the counter -/

/-- The id in the request of a call that has got one. -/
def ticket (c : Invocation) : Option ℕ :=
  if c.pc.numbered || c.pc.asked then some c.msg.header.id.toNat else none

def Numbered (s : Process κ) : Prop := Drawn s.channel.callid.toNat (s.calls.map ticket)

section Tickets
variable {t u : ℕ} {ch ch' : Rpcchannel κ} {c c' d : Invocation} {s s' : Process κ} {e : Event κ}

theorem ticket_of_asked (h : c.pc.asked = true) : ticket c = some c.msg.header.id.toNat := by
  rw [ticket,h,Bool.or_true,if_pos rfl]

theorem ticket_of_numbered (h : c.pc.numbered = true) :
    ticket c = some c.msg.header.id.toNat := by
  rw [ticket,h,Bool.true_or,if_pos rfl]

/-- The phases of a call exclude each other. -/
theorem only_unnumbered {pc : Pc} (h : pc.unnumbered = true) :
    pc.numbered = false ∧ pc.asked = false := by
  cases pc <;> simp_all [Pc.unnumbered,Pc.numbered,Pc.asked]

theorem only_numbered {pc : Pc} (h : pc.numbered = true) : pc.asked = false := by
  cases pc <;> simp_all [Pc.numbered,Pc.asked]

theorem ticket_of_unnumbered (h : c.pc.unnumbered = true) : ticket c = none := by
  simp [ticket,only_unnumbered h]

/-- A statement keeps the counter and the ticket, or draws the next one. -/
theorem Statement.ticket (hst : Statement t ch c ch' c') :
    (ch'.callid = ch.callid ∧ ticket c' = ticket c) ∨
      (c.pc = .setId ∧ ch'.callid = ch.callid + 1 ∧ c'.pc = .setHash ∧
        c'.msg.header.id = ch.callid + 1) := by
  cases hst with
  | stay => exact Or.inl ⟨rfl,rfl⟩
  | refuse pc =>
      left
      refine ⟨rfl,?_⟩
      rw [ticket_of_unnumbered (c := c) (by rw [pc]; rfl)]
      rfl
  | prepare pc pc' msg after =>
      left
      refine ⟨rfl,?_⟩
      rw [ticket_of_unnumbered pc]
      exact ticket_of_unnumbered after
  | number pc msg id => exact Or.inr ⟨pc,rfl,rfl,id⟩
  | finish pc pc' msg after id =>
      left
      refine ⟨rfl,?_⟩
      rw [ticket_of_numbered pc,← id]
      exact ticket_of_numbered after
  | ask pc =>
      left
      refine ⟨rfl,?_⟩
      rw [ticket_of_numbered (c := c) (by rw [pc]; rfl)]
      rfl
  | register pc | timeout pc _ | ready pc _ | get pc _ _ | throw pc _ | erase pc =>
      left
      refine ⟨rfl,?_⟩
      rw [ticket_of_asked (c := c) (by rw [pc]; rfl)]
      rfl

theorem Numbered.change (h : Numbered s) (hlen : s.calls.length < 2 ^ 32)
    (hch : Change s s' e) : Numbered s' := by
  cases hch with
  | other e channel calls | connect conn channel calls =>
      rw [Numbered,channel,calls]
      exact h
  | enter name req res channel calls =>
      rw [Numbered,channel,calls,List.map_append]
      exact h.join
  | statement e t c c' event mem done calls =>
      have hold : (s.calls.map ticket)[t]? = some (ticket c) := by
        rw [List.getElem?_map,mem,Option.map_some]
      rcases Statement.ticket done with ⟨hid,ht⟩ | ⟨hpc,hid,hpc',hmsg⟩
      · rw [Numbered,hid,calls,map_set_same ticket mem ht]
        exact h
      · rw [ticket_of_unnumbered (c := c) (by rw [hpc]; rfl)] at hold
        have hdraw := h.draw hold (M := 2 ^ 32) (by rwa [List.length_map])
        rw [Numbered,calls,List.map_set,ticket_of_numbered (c := c') (by rw [hpc']; rfl),hmsg,hid,
          UInt32.toNat_add]
        exact hdraw
  | response k msg prom value type find data pending channel calls =>
      rw [Numbered,channel,calls]
      exact h

theorem same_ticket (h : Numbered s) (hc : s.calls[t]? = some c) (hd : s.calls[u]? = some d)
    (hct : ticket c = some c.msg.header.id.toNat) (hdt : ticket d = some d.msg.header.id.toNat)
    (hid : c.msg.header.id = d.msg.header.id) : t = u := by
  apply h.distinct t u c.msg.header.id.toNat
  · rw [List.getElem?_map,hc,Option.map_some,hct]
  · rw [List.getElem?_map,hd,Option.map_some,hdt,hid]

end Tickets

/-! ### The invariant of calm runs -/

structure Correlation (s : Process κ) : Prop where
  keyed : Keyed s
  numbered : Numbered s
  window : ∀ c ∈ s.calls, c.pc.numbered = true → c.msg.header.id = s.channel.callid
  own : ∀ c ∈ s.calls, c.pc.asked = true → c.callid = c.msg.header.id
  intact : ∀ u, s.channel.prommap.states u ≠ .broken
  unthrown : ∀ c ∈ s.calls, c.pc ≠ .threw

theorem asked_of_waiting {pc : Pc} (h : pc.waiting = true) : pc.asked = true := by
  cases pc <;> simp_all [Pc.waiting,Pc.asked]

namespace Correlation
variable {H : Bytes → ℕ} {o : ByteOrder} {t u : ℕ} {c c' d : Invocation} {s s' : Process κ}
  {e : Event κ}

/-- Keys identify calls. -/
theorem same_key (h : Correlation s) (hc : s.calls[t]? = some c) (hd : s.calls[u]? = some d)
    (hca : c.pc.asked = true) (hda : d.pc.asked = true) (hkey : c.callid = d.callid) : t = u := by
  apply same_ticket h.numbered hc hd (ticket_of_asked hca) (ticket_of_asked hda)
  rw [← h.own c (List.mem_of_getElem? hc) hca,← h.own d (List.mem_of_getElem? hd) hda,hkey]

theorem correlated (h : Correlation s) : Correlated s where
  own c hc hpc := h.own c hc (asked_of_waiting hpc)
  apart := by
    rw [List.pairwise_iff_getElem]
    intro i j hi hj hij hpi hpj hkey
    have hsame := h.same_key (List.getElem?_eq_getElem hi) (List.getElem?_eq_getElem hj)
      (asked_of_waiting hpi) (asked_of_waiting hpj) hkey
    omega
  unbroken := h.unthrown

/-- The entry under a call's own key is its own. -/
theorem own_entry (h : Correlation s) (hc : s.calls[t]? = some c) (hpc : c.pc.asked = true)
    (hfind : s.channel.prommap.find c.callid = some u) : u = t ∧ c.pc.registered = true := by
  obtain ⟨d,hd,hreg,hkey⟩ := h.keyed.entry _ _ hfind
  obtain rfl := h.same_key hd hc (asked_of_registered hreg) hpc hkey
  obtain rfl := Option.some.inj (hd.symm.trans hc)
  exact ⟨rfl,hreg⟩

/-- A statement breaks no promise and finds none broken. -/
theorem statement_intact (h : Correlation s) (hc : s.calls[t]? = some c)
    (hst : Statement t s.channel c s'.channel c') :
    (∀ u, s'.channel.prommap.states u ≠ .broken) ∧ (c'.pc = .threw → c.pc = .threw) := by
  generalize s'.channel = ch' at hst
  cases hst with
  | register pc =>
      refine ⟨?_,fun hpc => by cases hpc⟩
      intro u hu
      rcases PromiseTable.states_discard_of_broken hu with hb | ⟨hfind,_⟩
      · exact h.intact u hb
      · have hreg := (h.own_entry hc (by rw [pc]; rfl) hfind).2
        rw [pc] at hreg
        cases hreg
  | erase pc =>
      refine ⟨?_,fun hpc => by cases hpc⟩
      intro u hu
      rcases PromiseTable.states_discard_of_broken hu with hb | ⟨hfind,hpending⟩
      · exact h.intact u hb
      · obtain rfl := (h.own_entry hc (by rw [pc]; rfl) hfind).1
        exact h.keyed.ready u c hc (Or.inr pc) hpending
  | throw pc empty =>
      exfalso
      have hready := h.keyed.ready t c hc (Or.inl pc)
      cases hs : s.channel.prommap.states t with
      | pending => exact hready hs
      | value v => exact empty v hs
      | broken => exact h.intact t hs
  | stay => exact ⟨h.intact,id⟩
  | prepare pc pc' msg after | finish pc pc' msg after id =>
      refine ⟨h.intact,?_⟩
      intro hpc
      rw [show pc' = .threw from hpc] at after
      cases after
  | refuse _ | number _ _ _ | ask _ | timeout _ _ | ready _ _ | get _ _ _ =>
      exact ⟨h.intact,fun hpc => by cases hpc⟩

/-- The counter as the calls in the window see it. -/
theorem statement_own (h : Correlation s) (hc : s.calls[t]? = some c)
    (hst : Statement t s.channel c s'.channel c') :
    (c'.pc.numbered = true → c'.msg.header.id = s'.channel.callid) ∧
      (c'.pc.asked = true → c'.callid = c'.msg.header.id) := by
  have hmem := List.mem_of_getElem? hc
  generalize s'.channel = ch' at hst
  cases hst with
  | stay => exact ⟨h.window c hmem,h.own c hmem⟩
  | refuse pc => simp [Pc.numbered,Pc.asked]
  | prepare pc pc' msg after => simp [only_unnumbered after]
  | number pc msg id => simp [id,Pc.asked]
  | finish pc pc' msg after id =>
      have hid := id.trans (h.window c hmem pc)
      simp [only_numbered after,hid]
  | ask pc =>
      have hid := h.window c hmem (by rw [pc]; rfl)
      simp [Pc.numbered,hid]
  | register pc | timeout pc _ | ready pc _ | get pc _ _ | throw pc _ | erase pc =>
      have hid := h.own c hmem (by rw [pc]; rfl)
      simp [Pc.numbered,hid]

theorem step (h : Correlation s) (hlen : s'.calls.length < 2 ^ 32) (he : Calm s e)
    (hs : RpcProcess.step H o s e = some s') : Correlation s' := by
  have hkeyed := h.keyed.step hs
  have hch := step_change hs
  have hnum : s.calls.length < 2 ^ 32 → Numbered s' := fun hl => h.numbered.change hl hch
  cases hch with
  | other e channel calls | connect conn channel calls =>
      rw [calls] at hlen
      refine ⟨hkeyed,hnum hlen,?_,?_,?_,?_⟩
      · rw [calls,channel]
        exact h.window
      · rw [calls]
        exact h.own
      · rw [channel]
        exact h.intact
      · rw [calls]
        exact h.unthrown
  | enter name req res channel calls =>
      rw [calls,List.length_append,List.length_singleton] at hlen
      refine ⟨hkeyed,hnum (by omega),?_,?_,?_,?_⟩
      · rw [calls,channel]
        exact forall_mem_concat h.window (by simp [Pc.numbered])
      · rw [calls]
        exact forall_mem_concat h.own (by simp [Pc.asked])
      · rw [channel]
        exact h.intact
      · rw [calls]
        exact forall_mem_concat h.unthrown (by simp)
  | statement e t c c' event mem done calls =>
      rw [calls,List.length_set] at hlen
      obtain ⟨hwindow,hown⟩ := h.statement_own mem done
      obtain ⟨hintact,hthrew⟩ := h.statement_intact mem done
      refine ⟨hkeyed,hnum hlen,?_,?_,hintact,?_⟩
      · rw [calls]
        refine forall_mem_set ?_ hwindow
        intro d hd hpc
        -- the counter moved only if no call was in the window
        rcases Statement.ticket done with ⟨hid,_⟩ | ⟨hset,_⟩
        · rw [hid]
          exact h.window d hd hpc
        · rcases event with rfl | ⟨_,hwait⟩
          · have hcalm := he c (by rw [mem]; rfl) hset d hd
            rw [hpc] at hcalm
            cases hcalm
          · rw [hset] at hwait
            cases hwait
      · rw [calls]
        exact forall_mem_set h.own hown
      · rw [calls]
        exact forall_mem_set h.unthrown fun hpc =>
          h.unthrown c (List.mem_of_getElem? mem) (hthrew hpc)
  | response k msg prom value type find data pending channel calls =>
      rw [calls] at hlen
      refine ⟨hkeyed,hnum hlen,?_,?_,?_,?_⟩
      · rw [calls,channel]
        exact h.window
      · rw [calls]
        exact h.own
      · intro u
        rw [channel]
        by_cases hu : u = prom
        · simp [hu]
        · rw [PromiseTable.states_fulfil_of_ne _ value hu]
          exact h.intact u
      · rw [calls]
        exact h.unthrown

theorem init (conn : Option κ) : Correlation (RpcProcess.init conn) := by
  refine ⟨init_keyed conn,Drawn.nil,?_,?_,?_,?_⟩
  · intro c hc
    cases hc
  · intro c hc
    cases hc
  · intro u hu
    cases hu
  · intro c hc
    cases hc

end Correlation

theorem calls_length_step {H : Bytes → ℕ} {o : ByteOrder} {s s' : Process κ} {e : Event κ}
    (hs : step H o s e = some s') : s.calls.length ≤ s'.calls.length := by
  cases step_change hs with
  | other e channel calls | connect conn channel calls => rw [calls]
  | enter name req res channel calls => simp [calls]
  | statement e t c c' event mem done calls => simp [calls]
  | response k msg prom value type find data pending channel calls => rw [calls]

/-- In a calm run the invariant holds as long as there have been fewer than
`2 ^ 32` calls. -/
theorem run_correlation {H : Bytes → ℕ} {o : ByteOrder} {conn : Option κ} {es : List (Event κ)}
    (hes : AllSteps (step H o) Calm (init conn) es) :
    AllStates (step H o) (fun s => s.calls.length < 2 ^ 32 → Correlation s) (init conn) es := by
  apply allStates_of_allSteps ?_ (fun _ => Correlation.init conn) hes
  intro s e s' hs he hstep hlen
  have hle := calls_length_step hstep
  exact (hs (by omega)).step hlen he hstep

/-- Calls correlate with their responses in every calm run. -/
theorem calls_correlate (H : Bytes → ℕ) (o : ByteOrder) (conn : Option κ) (es : List (Event κ))
    (hes : AllSteps (step H o) Calm (init conn) es) :
    AllStates (step H o) (fun s => s.calls.length < 2 ^ 32 → Correlated s) (init conn) es :=
  (run_correlation hes).mono fun _ hs hlen => (hs hlen).correlated

/-- `n` statements of one call. -/
def statements (t n : ℕ) : List (Event ℕ) := List.replicate n (.run t)

/-- Two calls, the second numbered once the first has read the counter again. -/
def calmRun : List (Event ℕ) :=
  [.call [1] [] [],.call [2] [] []] ++ statements 0 3 ++ statements 1 3 ++ statements 0 5 ++
    statements 1 7

theorem calls_correlate_calm :
    AllSteps (step (fun _ => 0) .little) Calm (init (some 0)) calmRun ∧
      AllStates (step (fun _ => 0) .little) (fun s => s.calls.length < 2 ^ 32 → Correlated s)
        (init (some 0)) calmRun := by
  have hes : AllSteps (step (fun _ => 0) .little) Calm (init (some 0)) calmRun := by decide
  exact ⟨hes,calls_correlate _ _ _ _ hes⟩

/-- Two calls that are both numbered before either reads the counter again: the
second replaces the promise of the first. -/
def collidingRun : List (Event ℕ) :=
  [.call [1] [] [],.call [2] [] []] ++ statements 0 4 ++ statements 1 4 ++ statements 0 5 ++
    statements 1 5 ++ statements 0 2

theorem promises_collide :
    ¬ ∀ (es : List (Event ℕ)) (s : Process ℕ),
      exec (step (fun _ => 0) .little) (init (some 0)) es = some s → s.calls.length < 2 ^ 32 →
        Correlated s := by
  intro h
  have hrun : ∃ s ∈ exec (step (fun _ => 0) .little) (init (some 0)) collidingRun,
      s.calls.length < 2 ^ 32 ∧ ∃ c ∈ s.calls, c.pc = .threw := by decide
  obtain ⟨s,hs,hlen,c,hc,hthrew⟩ := hrun
  exact (h collidingRun s hs hlen).unbroken c hc hthrew

end SindiaRpc.CallCorrelation
