import SindiaRpc.ResponseOrder

/-!
# A call on its way to its wait

The statements of a call assemble its request, whatever other calls do. With
one call in progress, they write the request and store the promise under its
id, whatever the read loops and other threads do beside it.
-/
namespace SindiaRpc.CallProgress
open MessageFrames DispatcherTable PromiseTables RpcChannel RpcProcess GuardedRuns PromiseKeys
  CallCorrelation ResponseOrder ListUpdates

variable {κ : Type*}

/-- What may happen beside invocation `t` before its response: no other call is
entered, the connection is not cleared, the time of `t` is not up, and no other
response carries its id. -/
def Beside (t : ℕ) (id : UInt32) : Event κ → Prop
  | .call _ _ _ => False
  | .setConnection conn => conn ≠ none
  | .expire u => u ≠ t
  | .receive _ msg => HasType msg .response → msg.header.id ≠ id
  | .reghandler _ _ | .run _ => True

/-- No call but `t` is in progress. -/
def Alone (t : ℕ) (s : Process κ) : Prop :=
  ∀ (u : ℕ) (d : Invocation), u ≠ t → s.calls[u]? = some d → d.pc.ended = true

section Others
variable {H : Bytes → ℕ} {o : ByteOrder} {s s' : Process κ} {e : Event κ} {t u : ℕ}
  {d : Invocation}

/-- A call that has ended does nothing. -/
theorem step_ended (hd : s.calls[u]? = some d) (hended : d.pc.ended = true)
    (hs : step H o s (.run u) = some s') : s' = s := by
  obtain ⟨c,e,hc,he,rfl⟩ := step_run.mp hs
  obtain rfl := Option.some.inj (hd.symm.trans hc)
  have hcall : s.channel.call H o u d = .ok ⟨s.channel,d,[]⟩ := by
    cases hpc : d.pc with
    | returned rc | threw => simp only [Rpcchannel.call,Rpcchannel.getResponse,hpc]
    | entry | construct | setType | setId | setHash | setErrcode | write | loadId | register
    | wait | get | erase =>
        rw [hpc] at hended
        cases hended
  rw [hcall,Except.ok.injEq] at he
  subst he
  obtain ⟨hlt,hget⟩ := List.getElem?_eq_some_iff.mp hd
  simp [Process.apply,← hget]

/-- What has been passed to `Write` stays. -/
theorem step_writes (hs : step H o s e = some s') : ∃ ws, s'.writes = s.writes ++ ws := by
  cases e with
  | reghandler name handler | setConnection conn | call name req res =>
      cases hs
      exact ⟨[],(List.append_nil _).symm⟩
  | run u =>
      obtain ⟨c,e,_,_,rfl⟩ := step_run.mp hs
      exact ⟨e.writes,rfl⟩
  | expire u =>
      obtain ⟨c,_,_,rfl⟩ := step_expire.mp hs
      exact ⟨_,rfl⟩
  | receive k msg =>
      obtain ⟨d,_,rfl⟩ := step_receive.mp hs
      exact ⟨d.writes,rfl⟩

/-- The steps of the others change the channel by `SetConnection` and by
responses only. -/
theorem Alone.other (h : Alone t s) (hown : own t e = false) (hcall : ∀ n r x, e ≠ .call n r x)
    (hs : step H o s e = some s') :
    s'.calls = s.calls ∧ (s'.channel = s.channel ∨
      (∃ conn, e = .setConnection conn ∧ s'.channel = {s.channel with conn := conn}) ∨
      ∃ k msg prom value, e = .receive k msg ∧ HasType msg .response ∧
        s.channel.prommap.find msg.header.id = some prom ∧
        s'.channel = {s.channel with prommap := s.channel.prommap.fulfil prom value}) := by
  cases step_change hs with
  | other e channel calls => exact ⟨calls,Or.inl channel⟩
  | connect conn channel calls => exact ⟨calls,Or.inr (Or.inl ⟨conn,rfl,channel⟩)⟩
  | enter name req res channel calls => exact absurd rfl (hcall name req res)
  | statement e u c c' event mem done calls =>
      have hne : u ≠ t := by
        intro heq
        subst heq
        rcases event with rfl | ⟨rfl,_⟩ <;> simp [own] at hown
      have hended := h u c hne mem
      rcases event with rfl | ⟨rfl,hpc⟩
      · rw [step_ended mem hended hs]
        exact ⟨rfl,Or.inl rfl⟩
      · rw [hpc] at hended
        cases hended
  | response k msg prom value type find data pending channel calls =>
      exact ⟨calls,Or.inr (Or.inr ⟨k,msg,prom,value,rfl,type,find,channel⟩)⟩

theorem Alone.of_calls (h : Alone t s) (hcalls : s'.calls = s.calls) : Alone t s' := by
  intro u d hu hd
  rw [hcalls] at hd
  exact h u d hu hd

theorem Alone.apply (h : Alone t s) (x : Effect κ) : Alone t (s.apply t x) := by
  intro u d hu hd
  rw [Process.calls_apply_ne s (Ne.symm hu)] at hd
  exact h u d hu hd

end Others

/-- The request that the statements still to come make of a call's message. -/
def assembled (H : Bytes → ℕ) (o : ByteOrder) (id : UInt32) (c : Invocation) : Option Message :=
  let hash := UInt32.ofNat (H c.name)
  match c.pc with
  | .entry | .construct => Message.build o c.req MsgType.request.code id hash 0
  | .setType =>
      some ((((c.msg.setType o MsgType.request.code).setId o id).setHash o hash).setErrcode o 0)
  | .setId => some (((c.msg.setId o id).setHash o hash).setErrcode o 0)
  | .setHash => some ((c.msg.setHash o hash).setErrcode o 0)
  | .setErrcode => some (c.msg.setErrcode o 0)
  | _ => some c.msg

/-! ### The request of any call -/

/-- Whatever other calls do, the message of a call becomes its request under
the id it has. -/
def Made (H : Bytes → ℕ) (o : ByteOrder) (c : Invocation) : Prop :=
  (c.pc.unnumbered = true → ∀ id, assembled H o id c =
    Message.build o c.req MsgType.request.code id (UInt32.ofNat (H c.name)) 0) ∧
  (c.pc.numbered = true ∨ c.pc.asked = true → assembled H o c.msg.header.id c =
    Message.build o c.req MsgType.request.code c.msg.header.id (UInt32.ofNat (H c.name)) 0)

section Made
variable {H : Bytes → ℕ} {o : ByteOrder} {t : ℕ} {ch : Rpcchannel κ} {c : Invocation}
  {s s' : Process κ} {e : Event κ}

theorem assembled_asked (hc : c.pc.asked = true) (id : UInt32) :
    assembled H o id c = some c.msg := by
  cases hpc : c.pc <;> simp_all [assembled,Pc.asked]

/-- A call keeps its arguments. -/
theorem Statement.arguments {ch' : Rpcchannel κ} {c' : Invocation}
    (h : Statement t ch c ch' c') : c'.name = c.name ∧ c'.req = c.req := by
  cases h <;> exact ⟨rfl,rfl⟩

theorem Made.asked {c' : Invocation} (h : Made H o c) (hc : c.pc.asked = true)
    (hc' : c'.pc.asked = true) (hmsg : c'.msg = c.msg) (hname : c'.name = c.name)
    (hreq : c'.req = c.req) : Made H o c' := by
  constructor
  · intro hpc
    rw [(only_unnumbered hpc).2] at hc'
    cases hc'
  · intro _
    rw [assembled_asked hc',hmsg,hname,hreq,← h.2 (Or.inr hc),assembled_asked hc]

theorem Made.getResponse (h : Made H o c) (hc : c.pc.asked = true) :
    Made H o (ch.getResponse t c).call := by
  have hst := getResponse_statement t ch c
  obtain ⟨hasked,_,hmsg⟩ := hst.asked hc
  obtain ⟨hname,hreq⟩ := Statement.arguments hst
  exact h.asked hc hasked hmsg hname hreq

/-- A message that has its id and is still `assembled` as before. -/
theorem Made.next {c' : Invocation} (hpc : c'.pc.unnumbered = false)
    (hmade : assembled H o c'.msg.header.id c' = Message.build o c'.req MsgType.request.code
      c'.msg.header.id (UInt32.ofNat (H c'.name)) 0) : Made H o c' := by
  refine ⟨?_,fun _ => hmade⟩
  intro h
  rw [hpc] at h
  cases h

/-- A message that has no id yet. -/
theorem Made.early {c' : Invocation} (hpc : c'.pc.unnumbered = true)
    (hmade : ∀ id, assembled H o id c' = Message.build o c'.req MsgType.request.code id
      (UInt32.ofNat (H c'.name)) 0) : Made H o c' := by
  refine ⟨fun _ => hmade,?_⟩
  intro h
  have hnot := only_unnumbered hpc
  rw [hnot.1,hnot.2] at h
  rcases h with h | h <;> cases h

theorem Made.call {x : Effect κ} (h : Made H o c) (hx : ch.call H o t c = .ok x) :
    Made H o x.call := by
  cases hpc : c.pc with
  | entry =>
      simp only [Rpcchannel.call,hpc] at hx
      cases hconn : ch.conn with
      | none =>
          rw [hconn] at hx
          cases hx
          constructor
          · intro h
            cases h
          · intro h
            rcases h with h | h <;> cases h
      | some k =>
          rw [hconn] at hx
          cases hx
          exact .early rfl fun _ => rfl
  | construct =>
      simp only [Rpcchannel.call,hpc] at hx
      cases hmsg : Message.ofData o c.req with
      | none => simp [hmsg] at hx
      | some msg =>
          rw [hmsg] at hx
          cases hx
          refine .early rfl fun id => ?_
          simp only [assembled,Message.build,hmsg,Option.map_some]
  | setType =>
      have hold := h.1 (by rw [hpc]; rfl)
      simp only [Rpcchannel.call,hpc] at hx
      cases hx
      simp only [assembled,hpc] at hold
      exact .early rfl hold
  | setId =>
      have hold := h.1 (by rw [hpc]; rfl)
      simp only [Rpcchannel.call,hpc] at hx
      cases hx
      simp only [assembled,hpc] at hold
      exact .next rfl (hold _)
  | setHash | setErrcode =>
      have hold := h.2 (Or.inl (by rw [hpc]; rfl))
      simp only [Rpcchannel.call,hpc] at hx
      cases hx
      simp only [assembled,hpc] at hold
      exact .next rfl hold
  | write =>
      have hold := h.2 (Or.inl (by rw [hpc]; rfl))
      simp only [Rpcchannel.call,hpc] at hx
      cases hconn : ch.conn with
      | none => simp [hconn] at hx
      | some k =>
          rw [hconn] at hx
          cases hx
          simp only [assembled,hpc] at hold
          exact .next rfl hold
  | loadId =>
      have hold := h.2 (Or.inl (by rw [hpc]; rfl))
      simp only [Rpcchannel.call,hpc] at hx
      cases hx
      simp only [assembled,hpc] at hold
      exact .next rfl hold
  | register | wait | get | erase =>
      simp only [Rpcchannel.call,hpc] at hx
      cases hx
      exact h.getResponse (by rw [hpc]; rfl)
  | returned rc | threw =>
      simp only [Rpcchannel.call,Rpcchannel.getResponse,hpc] at hx
      cases hx
      exact h

theorem run_arguments {es : List (Event κ)} (h : exec (step H o) s es = some s')
    (hc : s.calls[t]? = some c) :
    ∃ c', s'.calls[t]? = some c' ∧ c'.name = c.name ∧ c'.req = c.req := by
  apply exec_preserves (step H o)
    (P := fun s => ∃ c', s.calls[t]? = some c' ∧ c'.name = c.name ∧ c'.req = c.req)
    ?_ ⟨c,hc,rfl,rfl⟩ h
  intro s e s' hs hstep
  obtain ⟨d,hd,hname,hreq⟩ := hs
  cases step_change hstep with
  | other e channel calls | connect conn channel calls
  | response k msg prom value type find data pending channel calls =>
      exact ⟨d,by rwa [calls],hname,hreq⟩
  | enter name req res channel calls =>
      exact ⟨d,by rw [calls]; exact getElem?_concat_of_eq_some hd,hname,hreq⟩
  | statement e u a a' event mem done calls =>
      by_cases hu : u = t
      · subst hu
        obtain rfl := Option.some.inj (hd.symm.trans mem)
        obtain ⟨hname',hreq'⟩ := Statement.arguments done
        refine ⟨a',?_,hname'.trans hname,hreq'.trans hreq⟩
        rw [calls]
        exact getElem?_set_of_eq_some mem
      · refine ⟨d,?_,hname,hreq⟩
        rwa [calls,List.getElem?_set_ne hu]

theorem run_made {conn : Option κ} {es : List (Event κ)}
    (h : exec (step H o) (init conn) es = some s) : ∀ c ∈ s.calls, Made H o c := by
  apply exec_preserves (step H o) (P := fun s => ∀ c ∈ s.calls, Made H o c) ?_ (by simp [init]) h
  intro s e s' hs hstep
  cases e with
  | reghandler name handler | setConnection conn =>
      cases hstep
      exact hs
  | call name req res =>
      cases hstep
      exact forall_mem_concat hs (.early rfl fun _ => rfl)
  | run t =>
      obtain ⟨c,x,hc,hx,rfl⟩ := step_run.mp hstep
      exact forall_mem_set hs ((hs c (List.mem_of_getElem? hc)).call hx)
  | expire t =>
      obtain ⟨c,hc,hpc,rfl⟩ := step_expire.mp hstep
      have hmade := hs c (List.mem_of_getElem? hc)
      have hasked : c.pc.asked = true := by rw [hpc]; rfl
      refine forall_mem_set hs ?_
      unfold Rpcchannel.expire
      split_ifs
      · exact hmade.asked hasked rfl rfl rfl rfl
      · exact hmade.getResponse hasked
  | receive k msg =>
      obtain ⟨d,_,rfl⟩ := step_receive.mp hstep
      exact hs

end Made

/-! ### One call alone -/

/-- Statements before `wait_for`. -/
def statementsLeft : Pc → ℕ
  | .entry => 9
  | .construct => 8
  | .setType => 7
  | .setId => 6
  | .setHash => 5
  | .setErrcode => 4
  | .write => 3
  | .loadId => 2
  | .register => 1
  | _ => 0

/-- Where the call with token `t` stands that sends `request` under `id`. `ws`
is what the process has written since it was entered. -/
structure Stage (H : Bytes → ℕ) (o : ByteOrder) (t : ℕ) (id : UInt32) (request : Message)
    (ch : Rpcchannel κ) (ws : List (κ × Message)) (c : Invocation) : Prop where
  ahead : c.pc = .wait ∨ 0 < statementsLeft c.pc
  conn : ch.conn ≠ none
  counter : ch.callid + (if c.pc.unnumbered then 1 else 0) = id
  made : assembled H o id c = some request
  pending : ch.prommap.states t = .pending
  written : Awaiting c.pc → ∃ k, (k,request) ∈ ws
  key : c.pc = .register ∨ c.pc = .wait → c.callid = id
  found : c.pc = .wait → ch.prommap.find id = some t

section Stages
variable {H : Bytes → ℕ} {o : ByteOrder} {t : ℕ} {id : UInt32} {request : Message}
  {ch : Rpcchannel κ} {ws : List (κ × Message)} {c : Invocation}

theorem Stage.early (hpc : 2 < statementsLeft c.pc) (hconn : ch.conn ≠ none)
    (hcounter : ch.callid + (if c.pc.unnumbered then 1 else 0) = id)
    (hmade : assembled H o id c = some request) (hpending : ch.prommap.states t = .pending) :
    Stage H o t id request ch ws c := by
  have hlate : ¬ Awaiting c.pc := by
    intro hawait
    rcases hawait with h | h | h <;> simp [h,statementsLeft] at hpc
  refine ⟨Or.inr (by omega),hconn,hcounter,hmade,hpending,fun h => absurd h hlate,?_,?_⟩
  · exact fun h => absurd (Or.inr h) hlate
  · exact fun h => absurd (Or.inr (Or.inr h)) hlate

/-- One statement of the call. -/
theorem Stage.call (h : Stage H o t id request ch ws c)
    (hfree : c.pc = .register → ch.prommap.find id ≠ some t) :
    ∃ e, ch.call H o t c = .ok e ∧ Stage H o t id request e.channel (ws ++ e.writes) e.call ∧
      statementsLeft e.call.pc = statementsLeft c.pc - 1 := by
  obtain ⟨hahead,hconn,hcounter,hmade,hpending,hwritten,hkey,hfound⟩ := h
  cases hpc : c.pc with
  | entry =>
      obtain ⟨k,hk⟩ := Option.ne_none_iff_exists'.mp hconn
      refine ⟨_,by simp only [Rpcchannel.call,hpc,hk]; rfl,?_,rfl⟩
      simp only [assembled,hpc] at hmade hcounter
      exact .early (by simp [statementsLeft]) hconn hcounter hmade hpending
  | construct =>
      simp only [assembled,hpc,Message.build,Option.map_eq_some_iff] at hmade hcounter
      obtain ⟨msg,hmsg,hmade⟩ := hmade
      refine ⟨_,by simp only [Rpcchannel.call,hpc,hmsg]; rfl,?_,rfl⟩
      exact .early (by simp [statementsLeft]) hconn hcounter (congrArg some hmade) hpending
  | setType =>
      simp only [assembled,hpc] at hmade hcounter
      refine ⟨_,by simp only [Rpcchannel.call,hpc]; rfl,?_,rfl⟩
      exact .early (by simp [statementsLeft]) hconn hcounter hmade hpending
  | setId =>
      simp only [assembled,hpc,Pc.unnumbered,if_true] at hmade hcounter
      refine ⟨_,by simp only [Rpcchannel.call,hpc]; rfl,?_,rfl⟩
      refine .early (by simp [statementsLeft]) hconn ?_ ?_ hpending
      · simp [Pc.unnumbered,hcounter]
      · simp [assembled,hcounter,hmade]
  | setHash =>
      simp only [assembled,hpc] at hmade hcounter
      refine ⟨_,by simp only [Rpcchannel.call,hpc]; rfl,?_,rfl⟩
      exact .early (by simp [statementsLeft]) hconn hcounter hmade hpending
  | setErrcode =>
      simp only [assembled,hpc] at hmade hcounter
      refine ⟨_,by simp only [Rpcchannel.call,hpc]; rfl,?_,rfl⟩
      exact .early (by simp [statementsLeft]) hconn hcounter hmade hpending
  | write =>
      obtain ⟨k,hk⟩ := Option.ne_none_iff_exists'.mp hconn
      simp only [assembled,hpc] at hmade hcounter
      refine ⟨_,by simp only [Rpcchannel.call,hpc,hk]; rfl,?_,rfl⟩
      refine ⟨Or.inr (by simp [statementsLeft]),hconn,hcounter,hmade,hpending,?_,?_,?_⟩
      · intro _
        rw [← Option.some.inj hmade]
        exact ⟨k,by simp⟩
      · simp
      · simp
  | loadId =>
      simp only [assembled,hpc] at hmade hcounter
      refine ⟨_,by simp only [Rpcchannel.call,hpc]; rfl,?_,rfl⟩
      refine ⟨Or.inr (by simp [statementsLeft]),hconn,hcounter,hmade,hpending,?_,?_,?_⟩
      · intro _
        simpa using hwritten (Or.inl hpc)
      · simpa [Pc.unnumbered] using hcounter
      · simp
  | register =>
      simp only [assembled,hpc] at hmade hcounter
      have hid := hkey (Or.inl hpc)
      refine ⟨_,by simp only [Rpcchannel.call,Rpcchannel.getResponse,hpc]; rfl,?_,rfl⟩
      refine ⟨Or.inl rfl,hconn,hcounter,hmade,?_,?_,fun _ => hid,?_⟩
      · rw [← hpending,hid]
        exact PromiseTable.states_discard_of_ne (hfree hpc)
      · intro _
        simpa using hwritten (Or.inr (Or.inl hpc))
      · intro _
        rw [hid]
        exact PromiseTable.find_assign
  | wait =>
      refine ⟨⟨ch,c,[]⟩,by simp only [Rpcchannel.call,Rpcchannel.getResponse,hpc,hpending,if_true],
        ?_,by simp [hpc,statementsLeft]⟩
      exact ⟨hahead,hconn,hcounter,hmade,hpending,by simpa using hwritten,hkey,hfound⟩
  | get | erase | returned rc | threw =>
      rcases hahead with hwait | hleft
      · rw [hpc] at hwait
        cases hwait
      · rw [hpc] at hleft
        cases hleft

theorem Stage.registered (h : Stage H o t id request ch ws c) (hreg : c.pc.registered = true) :
    c.pc = .wait := by
  rcases h.ahead with hpc | hleft
  · exact hpc
  · cases hpc : c.pc <;> simp_all [statementsLeft,Pc.registered,Pc.asked]

/-- What the others may do to a call's surroundings. -/
theorem Stage.beside {ch' : Rpcchannel κ} (h : Stage H o t id request ch ws c)
    (ws' : List (κ × Message)) (hconn : ch'.conn ≠ none) (hcallid : ch'.callid = ch.callid)
    (hpending : ch'.prommap.states t = .pending)
    (hfind : ch'.prommap.find id = ch.prommap.find id) :
    Stage H o t id request ch' (ws ++ ws') c := by
  refine ⟨h.ahead,hconn,?_,h.made,hpending,?_,h.key,?_⟩
  · rw [hcallid]
    exact h.counter
  · intro hpc
    obtain ⟨k,hk⟩ := h.written hpc
    exact ⟨k,List.mem_append_left _ hk⟩
  · intro hpc
    rw [hfind]
    exact h.found hpc

end Stages

/-- The call with token `t` is alone and on its way to its wait. `before` is
what was written before it. -/
structure Underway (H : Bytes → ℕ) (o : ByteOrder) (t : ℕ) (id : UInt32) (request : Message)
    (before : List (κ × Message)) (s : Process κ) : Prop where
  keyed : Keyed s
  alone : Alone t s
  stage : ∃ c ws, s.calls[t]? = some c ∧ s.writes = before ++ ws ∧
    Stage H o t id request s.channel ws c

def left (t : ℕ) (s : Process κ) : ℕ := (s.calls[t]?.map fun c => statementsLeft c.pc).getD 0

section Underway
variable {H : Bytes → ℕ} {o : ByteOrder} {t : ℕ} {id : UInt32} {request : Message}
  {before : List (κ × Message)} {s s' : Process κ} {e : Event κ} {c : Invocation}

theorem left_eq (hc : s.calls[t]? = some c) : left t s = statementsLeft c.pc := by
  rw [left,hc]
  rfl

theorem Underway.own (h : Underway H o t id request before s) :
    ∃ s', step H o s (.run t) = some s' ∧ Underway H o t id request before s' ∧
      left t s' = left t s - 1 := by
  obtain ⟨c,ws,hc,hws,hstage⟩ := h.stage
  have hfree : c.pc = .register → s.channel.prommap.find id ≠ some t := by
    intro hpc hfind
    have hreg := ((h.keyed.entry _ _ hfind).of_call hc).1
    rw [hpc] at hreg
    cases hreg
  obtain ⟨x,hx,hnext,hleft⟩ := hstage.call hfree
  have hstep : step H o s (.run t) = some (s.apply t x) := step_run.mpr ⟨c,x,hc,hx,rfl⟩
  have hself := Process.calls_apply_self hc x
  refine ⟨_,hstep,⟨h.keyed.step hstep,h.alone.apply x,x.call,ws ++ x.writes,hself,?_,hnext⟩,?_⟩
  · rw [Process.apply,hws,List.append_assoc]
  · rw [left_eq hself,left_eq hc,hleft]

/-- A promise of the call is found under its own id only. -/
theorem Underway.find (h : Underway H o t id request before s) {k : UInt32}
    (hfind : s.channel.prommap.find k = some t) : k = id := by
  obtain ⟨c,ws,hc,_,hstage⟩ := h.stage
  obtain ⟨hreg,hk⟩ := (h.keyed.entry _ _ hfind).of_call hc
  rw [← hk]
  exact hstage.key (Or.inr (hstage.registered hreg))

theorem Underway.step (h : Underway H o t id request before s) (he : Beside t id e)
    (hs : RpcProcess.step H o s e = some s') :
    Underway H o t id request before s' ∧ left t s' ≤ left t s - (ResponseOrder.own t e).toNat := by
  cases hown : ResponseOrder.own t e with
  | true =>
      have hrun : e = .run t := by
        cases e with
        | run u => simpa [ResponseOrder.own] using hown
        | expire u => exact absurd (by simpa [ResponseOrder.own] using hown) he
        | reghandler _ _ | setConnection _ | call _ _ _ | receive _ _ => cases hown
      subst hrun
      obtain ⟨u,hu,hnext,hleft⟩ := h.own
      obtain rfl := Option.some.inj (hu.symm.trans hs)
      exact ⟨hnext,hleft.le⟩
  | false =>
      have hcall : ∀ n r x, e ≠ .call n r x := by
        intro n r x heq
        rw [heq] at he
        exact he
      obtain ⟨hcalls,hchannel⟩ := h.alone.other hown hcall hs
      obtain ⟨c,ws,hc,hws,hstage⟩ := h.stage
      obtain ⟨ws',hws'⟩ := step_writes hs
      have hc' : s'.calls[t]? = some c := by rw [hcalls,hc]
      have hnext : Stage H o t id request s'.channel (ws ++ ws') c := by
        rcases hchannel with hch | ⟨conn,rfl,hch⟩ | ⟨k,msg,prom,value,rfl,hm,hfind,hch⟩
        · rw [hch]
          exact hstage.beside ws' hstage.conn rfl hstage.pending rfl
        · rw [hch]
          exact hstage.beside ws' he rfl hstage.pending rfl
        · have hprom : t ≠ prom := by
            intro heq
            subst heq
            exact he hm (h.find hfind)
          have hpending := (PromiseTable.states_fulfil_of_ne _ value hprom).trans hstage.pending
          rw [hch]
          exact hstage.beside ws' hstage.conn rfl hpending rfl
      refine ⟨⟨h.keyed.step hs,h.alone.of_calls hcalls,c,ws ++ ws',hc',?_,hnext⟩,?_⟩
      · rw [hws',hws,List.append_assoc]
      · rw [left_eq hc',left_eq hc]
        simp

/-- The call is on its way throughout a run beside it, and further with each
statement of its own. -/
theorem Underway.run {es : List (Event κ)} (h : Underway H o t id request before s)
    (hes : ∀ e ∈ es, Beside t id e) (hrun : exec (RpcProcess.step H o) s es = some s') :
    Underway H o t id request before s' ∧
      left t s' ≤ left t s - es.countP (ResponseOrder.own t) := by
  apply exec_rank (RpcProcess.step H o) (A := Beside t id) ?_ hes h hrun
  exact fun s e s' he hs hstep => hs.step he hstep

/-- Nothing keeps the call from its next statement. -/
theorem Underway.runs (h : Underway H o t id request before s) (n : ℕ) :
    ∃ s', exec (RpcProcess.step H o) s (List.replicate n (.run t)) = some s' := by
  induction n generalizing s with
  | zero => exact ⟨s,rfl⟩
  | succ n ih =>
      obtain ⟨u,hu,hnext,_⟩ := h.own
      obtain ⟨s',hs'⟩ := ih hnext
      exact ⟨s',(exec_cons_eq_some _).mpr ⟨u,hu,hs'⟩⟩

theorem Underway.found (h : Underway H o t id request before s) (hleft : left t s = 0) :
    s.channel.prommap.find id = some t := by
  obtain ⟨c,_,hc,_,hstage⟩ := h.stage
  rw [left_eq hc] at hleft
  apply hstage.found
  rcases hstage.ahead with hpc | hpc
  · exact hpc
  · omega

/-- With its promise in the table the call waits, and its request has been
written. -/
theorem Underway.waits (h : Underway H o t id request before s)
    (hfind : s.channel.prommap.find id = some t) :
    ∃ c ws, s.calls[t]? = some c ∧ c.pc = .wait ∧ c.callid = id ∧ s.writes = before ++ ws ∧
      (∃ k, (k,request) ∈ ws) ∧ s.channel.prommap.states t = .pending := by
  obtain ⟨c,ws,hc,hws,hstage⟩ := h.stage
  have hpc := hstage.registered ((h.keyed.entry _ _ hfind).of_call hc).1
  exact ⟨c,ws,hc,hpc,hstage.key (Or.inr hpc),hws,hstage.written (Or.inr (Or.inr hpc)),
    hstage.pending⟩

/-- No promise of a call still to come has been touched. -/
theorem fresh_pending (h : Keyed s) : s.channel.prommap.states s.calls.length = .pending := by
  by_contra hne
  obtain ⟨m,c,hc,_⟩ := h.settled _ hne
  simp at hc

/-- A call that is entered is on its way. -/
theorem underway_of_entered {name req res : Bytes} (hkeyed : Keyed s)
    (hidle : ∀ c ∈ s.calls, c.pc.ended = true) (hconn : s.channel.conn ≠ none)
    (hmade : Message.build o req MsgType.request.code (s.channel.callid + 1)
      (UInt32.ofNat (H name)) 0 = some request)
    (hs : RpcProcess.step H o s (.call name req res) = some s') :
    Underway H o s.calls.length (s.channel.callid + 1) request s.writes s' ∧
      left s.calls.length s' = 9 := by
  have hkeyed' := hkeyed.step hs
  cases hs
  have hself : (s.calls ++ [{name := name, req := req, res := res}])[s.calls.length]? =
      some {name := name, req := req, res := res} := by simp
  refine ⟨⟨hkeyed',?_,_,[],hself,(List.append_nil _).symm,?_⟩,
    (left_eq hself).trans rfl⟩
  · intro u d hu hd
    rcases getElem?_concat_cases hd with hd | ⟨hlen,_⟩
    · exact hidle d (List.mem_of_getElem? hd)
    · exact absurd hlen hu
  · exact .early (by simp [statementsLeft]) hconn rfl hmade (fresh_pending hkeyed)

end Underway
end SindiaRpc.CallProgress
