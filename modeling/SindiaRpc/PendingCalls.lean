import SindiaRpc.ResponseOrder
import Mathlib.Data.List.Perm.Subperm

/-!
# The calls behind the entries of the table

`GetResponse` takes its entry out of `m_prommap` when it returns `RPCOK` and
leaves it there when it returns `RPCTIMEOUT`. With one caller the keys of the
table are the ids of the calls in `GetResponse` as long as none has timed out.
-/
namespace SindiaRpc.PendingCalls
open MessageFrames DispatcherTable PromiseTables RpcChannel RpcProcess GuardedRuns PromiseKeys
  CallCorrelation ResponseOrder ListUpdates

variable {κ : Type*}

/-- One caller with fewer than `2 ^ 32` calls. -/
def OneCaller (s : Process κ) : Event κ → Prop
  | .call _ _ _ => (∀ c ∈ s.calls, c.pc.ended = true) ∧ s.calls.length + 1 < 2 ^ 32
  | _ => True

instance (s : Process κ) : ∀ e, Decidable (OneCaller s e)
  | .call _ _ _ => inferInstanceAs (Decidable (_ ∧ _))
  | .reghandler _ _ | .setConnection _ | .run _ | .expire _ | .receive _ _ => .isTrue trivial

/-- The call has registered its promise and has not returned. -/
def Open (c : Invocation) : Prop := c.pc.registered = true ∧ c.pc.ended = false

instance (c : Invocation) : Decidable (Open c) := inferInstanceAs (Decidable (_ ∧ _))

/-- The table holds the calls in progress. -/
structure Exact (s : Process κ) : Prop where
  keys : ∀ k, k ∈ s.channel.prommap.entries.keys ↔ ∃ c ∈ s.calls, Open c ∧ c.msg.header.id = k
  returned : ∀ c ∈ s.calls, c.pc = .returned .rpcOk ∨ c.pc = .returned .rpcTimeout →
    s.channel.prommap.find c.msg.header.id = none
  size : s.channel.prommap.entries.keys.length ≤ s.calls.countP fun c => !c.pc.ended

/-- No wait ends with its promise pending. -/
def Timely (s : Process κ) : Event κ → Prop
  | .expire t => ∀ c ∈ s.calls[t]?, c.pc = .wait → s.channel.prommap.states t ≠ .pending
  | _ => True

/-- Entries belong to calls that have not returned, and those find theirs. -/
structure Held (s : Process κ) : Prop where
  one : AtMostOne s
  correlation : Correlation s
  bound : s.calls.length < 2 ^ 32
  live : ∀ k u, s.channel.prommap.find k = some u → ∃ c, s.calls[u]? = some c ∧ c.pc.ended = false
  current : ∀ u c, s.calls[u]? = some c → Open c → s.channel.prommap.find c.callid = some u

section Exactness
variable {s : Process κ} {k : UInt32}

theorem mem_keys_iff : k ∈ s.channel.prommap.entries.keys ↔
    ∃ u, s.channel.prommap.find k = some u := by
  rw [← AList.mem_keys,← AList.lookup_isSome,Option.isSome_iff_exists]
  rfl

theorem Held.keys (h : Held s) : k ∈ s.channel.prommap.entries.keys ↔
    ∃ c ∈ s.calls, Open c ∧ c.msg.header.id = k := by
  rw [mem_keys_iff]
  constructor
  · intro hex
    rcases hex with ⟨u,hfind⟩
    obtain ⟨c,hc,hended⟩ := h.live k u hfind
    obtain ⟨hreg,hkey⟩ := (h.correlation.keyed.entry k u hfind).of_call hc
    have hmem := List.mem_of_getElem? hc
    exact ⟨c,hmem,⟨hreg,hended⟩,
      (h.correlation.own c hmem (asked_of_registered hreg)).symm.trans hkey⟩
  · intro hex
    rcases hex with ⟨c,hmem,hopen,hid⟩
    obtain ⟨u,hc⟩ := List.mem_iff_getElem?.mp hmem
    refine ⟨u,?_⟩
    rw [← hid,← h.correlation.own c hmem (asked_of_registered hopen.1)]
    exact h.current u c hc hopen

/-- A call that has returned is not found. -/
theorem Held.returned (h : Held s) {c : Invocation} (hmem : c ∈ s.calls)
    (hpc : c.pc = .returned .rpcOk ∨ c.pc = .returned .rpcTimeout) :
    s.channel.prommap.find c.msg.header.id = none := by
  have hphase : c.pc.asked = true ∧ c.pc.ended = true := by
    rcases hpc with hpc | hpc <;> exact ⟨by rw [hpc]; rfl,by rw [hpc]; rfl⟩
  cases hfind : s.channel.prommap.find c.msg.header.id with
  | none => rfl
  | some u =>
      obtain ⟨t,hc⟩ := List.mem_iff_getElem?.mp hmem
      obtain ⟨d,hd,hended⟩ := h.live _ u hfind
      rw [← h.correlation.own c hmem hphase.1] at hfind
      obtain ⟨rfl,_⟩ := h.correlation.own_entry hc hphase.1 hfind
      obtain rfl := Option.some.inj (hd.symm.trans hc)
      rw [hphase.2] at hended
      cases hended

/-- Distinct keys, each of them the id of another open call. -/
theorem Held.size (h : Held s) :
    s.channel.prommap.entries.keys.length ≤ s.calls.countP fun c => !c.pc.ended := by
  have hsub : s.channel.prommap.entries.keys ⊆
      (s.calls.filter fun c => !c.pc.ended).map fun c => c.msg.header.id := by
    intro k hk
    obtain ⟨c,hmem,hopen,hid⟩ := h.keys.mp hk
    exact List.mem_map.mpr ⟨c,List.mem_filter.mpr ⟨hmem,by simp [hopen.2]⟩,hid⟩
  have hle := (s.channel.prommap.entries.keys_nodup.subperm hsub).length_le
  rwa [List.length_map,← List.countP_eq_length_filter] at hle

theorem Held.exact (h : Held s) : Exact s := ⟨fun _ => h.keys,fun _ => h.returned,h.size⟩

end Exactness

section Step
variable {H : Bytes → ℕ} {o : ByteOrder} {s s' : Process κ} {e : Event κ} {t u : ℕ}
  {c c' d : Invocation} {k : UInt32}

/-- A statement by which a registered call ends has taken its entry away, or
is the end of a wait whose promise is pending. -/
theorem Statement.ends (hst : Statement t s.channel c s'.channel c') (hc : Open c)
    (hended : c'.pc.ended = true) : c'.pc = .threw ∨
      c.pc = .wait ∧ s.channel.prommap.states t = .pending ∨
      s'.channel.prommap.find c.callid = none := by
  rcases hc with ⟨hreg,hrunning⟩
  generalize s'.channel = ch' at hst
  cases hst with
  | stay =>
      rw [hrunning] at hended
      cases hended
  | refuse pc | number pc _ _ | ask pc | register pc => simp [pc,Pc.registered,Pc.asked] at hreg
  | prepare pc pc' msg after | finish pc pc' msg after id =>
      cases hpc : c.pc <;> simp_all [Pc.registered,Pc.asked,Pc.unnumbered,Pc.numbered]
  | timeout pc pending => exact Or.inr (Or.inl ⟨pc,pending⟩)
  | ready pc done => cases hended
  | get pc value done => cases hended
  | throw pc empty => exact Or.inl rfl
  | erase pc => exact Or.inr (Or.inr PromiseTable.find_erase)

/-- In a timely step a call whose promise is pending goes on waiting. -/
theorem waits_on (he : Timely s e) (hs : step H o s e = some s') (hc : s.calls[t]? = some c)
    (hevent : e = .run t ∨ e = .expire t ∧ c.pc = .wait) (hpc : c.pc = .wait)
    (hpending : s.channel.prommap.states t = .pending) : s'.calls[t]? = some c := by
  rcases hevent with rfl | ⟨rfl,_⟩
  · obtain ⟨d,x,hd,hx,rfl⟩ := step_run.mp hs
    obtain rfl := Option.some.inj (hc.symm.trans hd)
    simp only [Rpcchannel.call,Rpcchannel.getResponse,hpc,hpending,if_true,Except.ok.injEq] at hx
    rw [← hx]
    exact Process.calls_apply_self hc _
  · exact absurd hpending (he c (by rw [hc]; rfl) hpc)

theorem Held.live_step (h : Held s) (hcor : Correlation s') (he : Timely s e)
    (hs : step H o s e = some s') (hfind : s'.channel.prommap.find k = some u) :
    ∃ c, s'.calls[u]? = some c ∧ c.pc.ended = false := by
  cases step_change hs with
  | other e channel calls | connect conn channel calls
  | response k' msg prom value type find data pending channel calls =>
      rw [channel] at hfind
      rw [calls]
      exact h.live k u hfind
  | enter name req res channel calls =>
      rw [channel] at hfind
      rw [calls]
      exact (h.live k u hfind).imp fun c hc => ⟨getElem?_concat_of_eq_some hc.1,hc.2⟩
  | statement e t c c' event mem done calls =>
      have hself : s'.calls[t]? = some c' := by
        rw [calls]
        exact getElem?_set_of_eq_some mem
      rcases PromiseKeys.Statement.find done hfind with hold | ⟨rfl,_,_,hpc'⟩
      · obtain ⟨d,hd,hrunning⟩ := h.live k u hold
        by_cases hu : u = t
        · subst hu
          obtain rfl := Option.some.inj (hd.symm.trans mem)
          obtain ⟨hreg,hkey⟩ := (h.correlation.keyed.entry k u hold).of_call mem
          refine ⟨c',hself,Bool.eq_false_of_not_eq_true ?_⟩
          intro hended
          rcases Statement.ends done ⟨hreg,hrunning⟩ hended with hthrew | ⟨hpc,hpending⟩ | hnone
          · exact hcor.unthrown c' (List.mem_of_getElem? hself) hthrew
          · have hsame := waits_on he hs mem event hpc hpending
            obtain rfl := Option.some.inj (hsame.symm.trans hself)
            rw [hrunning] at hended
            cases hended
          · rw [hkey,hfind] at hnone
            cases hnone
        · refine ⟨d,?_,hrunning⟩
          rwa [calls,List.getElem?_set_ne (Ne.symm hu)]
      · exact ⟨c',hself,by rw [hpc']; rfl⟩

/-- A statement of another call leaves the entry of an open call. -/
theorem Held.kept (h : Held s) (hc : s.calls[t]? = some c) (hd : s.calls[u]? = some d)
    (hopen : Open d) (hne : u ≠ t) (hst : Statement t s.channel c s'.channel c') :
    s'.channel.prommap.find d.callid = some u := by
  have hfind := h.current u d hd hopen
  have hapart : c.pc.asked = true → d.callid ≠ c.callid := fun hca hkey =>
    hne (h.correlation.same_key hd hc (asked_of_registered hopen.1) hca hkey)
  generalize s'.channel = ch' at hst
  cases hst with
  | register pc => rwa [PromiseTable.find_assign_of_ne (hapart (by rw [pc]; rfl))]
  | erase pc => rwa [PromiseTable.find_erase_of_ne (hapart (by rw [pc]; rfl))]
  | stay | refuse _ | prepare _ _ _ _ | number _ _ _ | finish _ _ _ _ _ | ask _ | timeout _ _
  | ready _ _ | get _ _ _ | throw _ _ => exact hfind

/-- The entry of the call that executes a statement. -/
theorem Held.own (h : Held s) (hc : s.calls[t]? = some c) (hopen : Open c')
    (hst : Statement t s.channel c s'.channel c') :
    s'.channel.prommap.find c'.callid = some t := by
  have hold := h.current t c hc
  rcases hopen with ⟨hreg,hrunning⟩
  generalize s'.channel = ch' at hst
  cases hst with
  | stay => exact hold ⟨hreg,hrunning⟩
  | register pc => exact PromiseTable.find_assign
  | ready pc _ | get pc _ _ => exact hold ⟨by rw [pc]; rfl,by rw [pc]; rfl⟩
  | refuse _ | timeout _ _ | throw _ _ | erase _ => cases hrunning
  | number _ _ _ | ask _ => cases hreg
  | prepare pc pc' msg after | finish pc pc' msg after id =>
      cases hpc : pc' <;> simp_all [Pc.registered,Pc.asked,Pc.unnumbered,Pc.numbered]

theorem Held.step (h : Held s) (hone : OneCaller s e) (he : Timely s e)
    (hs : RpcProcess.step H o s e = some s') : Held s' := by
  have hsolo : Solo s e := by
    cases e with
    | call _ _ _ => exact hone.1
    | reghandler _ _ | setConnection _ | run _ | expire _ | receive _ _ => trivial
  have hbound : s'.calls.length < 2 ^ 32 := by
    cases step_change hs with
    | enter name req res channel calls =>
        rw [calls,List.length_append,List.length_singleton]
        exact hone.2
    | statement e t c c' event mem done calls =>
        rw [calls,List.length_set]
        exact h.bound
    | other e channel calls | connect conn channel calls
    | response k' msg prom value type find data pending channel calls =>
        rw [calls]
        exact h.bound
  have hcor := h.correlation.step hbound h.one.calm hs
  refine ⟨h.one.step hsolo hs,hcor,hbound,fun _ _ => h.live_step hcor he hs,?_⟩
  intro u d hd hopen
  cases step_change hs with
  | other e channel calls | connect conn channel calls
  | response k' msg prom value type find data pending channel calls =>
      rw [calls] at hd
      rw [channel]
      exact h.current u d hd hopen
  | enter name req res channel calls =>
      rw [calls] at hd
      rw [channel]
      rcases getElem?_concat_cases hd with hd | ⟨_,rfl⟩
      · exact h.current u d hd hopen
      · cases hopen.1
  | statement e t c c' event mem done calls =>
      rw [calls] at hd
      rcases getElem?_set_cases hd with ⟨rfl,rfl⟩ | ⟨hne,hd⟩
      · exact h.own mem hopen done
      · exact h.kept mem hd hopen hne done

/-- A timeout leaves its entry behind. -/
theorem Held.late (h : Held s) (he : ¬ Timely s e) : ∃ s', RpcProcess.step H o s e = some s' ∧
    ¬ Exact s' := by
  cases e with
  | expire t =>
      simp only [Timely,not_forall,not_not] at he
      obtain ⟨c,hc,hpc,hpending⟩ := he
      refine ⟨_,step_expired hc hpc hpending,?_⟩
      intro hexact
      have hopen : Open c := ⟨by rw [hpc]; rfl,by rw [hpc]; rfl⟩
      have hfind := h.current t c hc hopen
      rw [h.correlation.own c (List.mem_of_getElem? hc) (asked_of_registered hopen.1)] at hfind
      have hself := Process.calls_apply_self hc
        (⟨s.channel,{c with pc := .returned .rpcTimeout},[]⟩ : Effect κ)
      have hnone := hexact.returned _ (List.mem_of_getElem? hself) (Or.inr rfl)
      change s.channel.prommap.find c.msg.header.id = none at hnone
      rw [hfind] at hnone
      cases hnone
  | reghandler _ _ | setConnection _ | call _ _ _ | run _ | receive _ _ => exact absurd trivial he

end Step

/-- With one caller, the table holds exactly the calls in progress in every
state of a run iff no call of the run times out. -/
theorem table_exact_iff (H : Bytes → ℕ) (o : ByteOrder) (conn : Option κ) (es : List (Event κ))
    (hone : AllSteps (step H o) OneCaller (init conn) es) :
    AllStates (step H o) Exact (init conn) es ↔ AllSteps (step H o) Timely (init conn) es := by
  apply allStates_iff_allSteps_within (I := Held) (fun _ h => h.exact)
    (fun _ _ _ h hone he hs => h.step hone he hs) (fun _ _ h _ he => h.late he) ?_ hone
  refine ⟨AtMostOne.init conn,Correlation.init conn,by simp [init],?_,?_⟩
  · intro k u hfind
    cases hfind
  · intro u c hc
    cases hc

/-- A call that is answered and one that waits. -/
def timelyRun : List (Event ℕ) :=
  .call [1] [] [] :: statements 0 9 ++ [.receive 0 firstResponse] ++ statements 0 3 ++
    [.call [1] [] []] ++ statements 1 9

theorem table_exact_iff_timely :
    AllStates (step (fun _ => 0) .little) Exact (init (some 0)) timelyRun ↔
      AllSteps (step (fun _ => 0) .little) Timely (init (some 0)) timelyRun :=
  table_exact_iff _ _ _ _ (by decide)

/-- A call that times out. -/
def lateRun : List (Event ℕ) := .call [1] [] [] :: statements 0 9 ++ [.expire 0]

theorem timeout_leaves_entry :
    ¬ ∀ es : List (Event ℕ), AllSteps (step (fun _ => 0) .little) OneCaller (init (some 0)) es →
      AllStates (step (fun _ => 0) .little) Exact (init (some 0)) es := by
  intro h
  have hrun : ∃ s ∈ exec (step (fun _ => 0) .little) (init (some 0)) lateRun, ∃ c ∈ s.calls,
      c.pc = .returned .rpcTimeout ∧ s.channel.prommap.find c.msg.header.id ≠ none := by decide
  have hone : AllSteps (step (fun _ => 0) .little) OneCaller (init (some 0)) lateRun := by decide
  obtain ⟨s,hs,c,hc,hpc,hfind⟩ := hrun
  have hexact : Exact s := (h lateRun hone).last hs
  exact hfind (hexact.returned c hc (Or.inr hpc))

end SindiaRpc.PendingCalls
