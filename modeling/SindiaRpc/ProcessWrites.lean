import SindiaRpc.CallProgress
import SindiaRpc.FrameBounds
import SindiaRpc.StreamContents
import SindiaRpc.MatchedLists

/-!
# What a process passes to `Write`

`Call` writes one request, and `dispatch` one response for each request it is
given. In any run, with calls and the messages of all connections interleaved,
the responses written on a connection answer the requests read from it one by
one and in order, and no two requests carry the same id.
-/
namespace SindiaRpc.ProcessWrites
open MessageFrames DispatcherTable PromiseTables RpcChannel RpcProcess GuardedRuns FrameBounds
  CallCorrelation CallProgress StreamReading StreamContents ListUpdates

variable {κ : Type*}

/-- What a history has of connection `k`. -/
def on [DecidableEq κ] {α : Type*} (k : κ) (history : List (κ × α)) : List α :=
  (history.filter fun r => r.1 = k).map Prod.snd

def ofType (type : MsgType) (ms : List Message) : List Message := ms.filter fun m => HasType m type

/-- The requests, each with the handler that was found for it. -/
def asked (lookups : List (Message × Option (Bytes → Bytes))) :
    List (Message × Option (Bytes → Bytes)) :=
  lookups.filter fun l => HasType l.1 .request

/-- The request of the call has been passed to `Write`. -/
def Sent (pc : Pc) : Prop := pc = .loadId ∨ pc.asked = true

/-- Call `t` has passed this request to `Write`. -/
def Wrote (s : Process κ) (t : ℕ) (request : Message) : Prop :=
  ∃ c, s.calls[t]? = some c ∧ Sent c.pc ∧ c.msg = request

/-- `res` is what the handler returned that was found for a request with this hash
and body: it is still bound to the hash, and it has run on the whole body. Where
none was found, `res` is empty. -/
def Outcome (s : Process κ) (hash : ℕ) (body : Option Bytes) (res : Bytes) :
    Option (Bytes → Bytes) → Prop
  | none => res = []
  | some h => bound s.callmap hash = some h ∧ ∃ req, body = some req ∧ res = h req ∧
      (h,req) ∈ s.ran

/-- `reply` carries the result of the request, which comes with what was bound to
its hash when it was dispatched. -/
structure Answered (s : Process κ) (request : Message × Option (Bytes → Bytes)) (reply : Message) :
    Prop where
  id : reply.header.id = request.1.header.id
  hash : reply.header.hash = request.1.header.hash
  body : ∃ res, reply.dataString = some res ∧
    Outcome s request.1.getHash request.1.dataString res request.2

/-! ### What one step writes -/

/-- The histories of a process over one step. -/
inductive Traffic (o : ByteOrder) (s : Process κ) : Process κ → Prop
  | quiet {s' : Process κ} (writes : s'.writes = s.writes) (received : s'.received = s.received)
      (lookups : s'.lookups = s.lookups) (ran : s'.ran = s.ran)
      (kept : ∀ hash h, bound s.callmap hash = some h → bound s'.callmap hash = some h) :
      Traffic o s s'
  | request (t : ℕ) (c : Invocation) (k : κ) (mem : s.calls[t]? = some c) (pc : c.pc = .write) :
      Traffic o s (s.apply t ⟨s.channel,{c with pc := .loadId},[(k,c.msg)]⟩)
  | arrival (k : κ) (msg : Message) (d : Dispatched κ)
      (done : dispatch o s.callmap (some k) msg s.channel = .ok d) :
      Traffic o s (s.deliver k msg d)

section Steps
variable {H : Bytes → ℕ} {o : ByteOrder} {s s' : Process κ} {e : Event κ} {t : ℕ} {k : κ}
  {ch : Rpcchannel κ} {c : Invocation} {msg request reply : Message} {d : Dispatched κ}
  {hash : ℕ} {body : Option Bytes} {res : Bytes} {found : Option (Bytes → Bytes)}
  {r : Message × Option (Bytes → Bytes)}

theorem getResponse_writes (t : ℕ) (ch : Rpcchannel κ) (c : Invocation) :
    (ch.getResponse t c).writes = [] := by
  unfold Rpcchannel.getResponse
  split
  · rfl
  · split_ifs <;> rfl
  · split <;> rfl
  · rfl
  · rfl

/-- Only the statement that calls `Write` writes. -/
theorem call_writes {x : Effect κ} (h : ch.call H o t c = .ok x) :
    x.writes = [] ∨ ∃ k, c.pc = .write ∧ x = ⟨ch,{c with pc := .loadId},[(k,c.msg)]⟩ := by
  cases hpc : c.pc with
  | entry =>
      simp only [Rpcchannel.call,hpc] at h
      cases hconn : ch.conn <;> rw [hconn] at h <;> cases h <;> exact Or.inl rfl
  | construct =>
      simp only [Rpcchannel.call,hpc] at h
      cases hmsg : Message.ofData o c.req with
      | none => simp [hmsg] at h
      | some msg =>
          rw [hmsg] at h
          cases h
          exact Or.inl rfl
  | write =>
      simp only [Rpcchannel.call,hpc] at h
      cases hconn : ch.conn with
      | none => simp [hconn] at h
      | some k =>
          rw [hconn] at h
          cases h
          exact Or.inr ⟨k,rfl,rfl⟩
  | setType | setId | setHash | setErrcode | loadId =>
      simp only [Rpcchannel.call,hpc] at h
      cases h
      exact Or.inl rfl
  | register | wait | get | erase | returned _ | threw =>
      simp only [Rpcchannel.call,hpc] at h
      cases h
      exact Or.inl (getResponse_writes t ch c)

theorem expire_writes (t : ℕ) (ch : Rpcchannel κ) (c : Invocation) :
    (ch.expire t c).writes = [] := by
  unfold Rpcchannel.expire
  split_ifs
  · rfl
  · exact getResponse_writes t ch c

/-- A handler that is bound stays bound. -/
theorem bound_reghandler {callmap : Callmap} {hash : ℕ} {h : Bytes → Bytes}
    (hbound : bound callmap hash = some h) (name : Bytes) (handler : Handler) :
    bound (reghandler H name handler callmap) hash = some h := by
  rw [bound_eq_some] at hbound ⊢
  rw [lookup_reghandler,hbound]
  rfl

theorem step_traffic (hs : step H o s e = some s') : Traffic o s s' := by
  cases e with
  | reghandler name handler =>
      cases hs
      exact .quiet rfl rfl rfl rfl fun _ _ hbound => bound_reghandler hbound name handler
  | setConnection conn | call name req res =>
      cases hs
      exact .quiet rfl rfl rfl rfl fun _ _ hbound => hbound
  | run t =>
      obtain ⟨c,x,hc,hx,rfl⟩ := step_run.mp hs
      rcases call_writes hx with hnil | ⟨k,hpc,rfl⟩
      · exact .quiet (by simp [Process.apply,hnil]) rfl rfl rfl fun _ _ hbound => hbound
      · exact .request t c k hc hpc
  | expire t =>
      obtain ⟨c,_,_,rfl⟩ := step_expire.mp hs
      exact .quiet (by simp [Process.apply,expire_writes]) rfl rfl rfl fun _ _ hbound => hbound
  | receive k msg =>
      obtain ⟨d,hd,rfl⟩ := step_receive.mp hs
      exact .arrival k msg d hd

/-- A request that has been sent stays what it is. -/
theorem sent_step (hs : step H o s e = some s') (hc : s.calls[t]? = some c) (hsent : Sent c.pc) :
    ∃ c', s'.calls[t]? = some c' ∧ Sent c'.pc ∧ c'.msg = c.msg := by
  cases e with
  | reghandler name handler | setConnection conn =>
      cases hs
      exact ⟨c,hc,hsent,rfl⟩
  | call name req res =>
      cases hs
      exact ⟨c,getElem?_concat_of_eq_some hc,hsent,rfl⟩
  | run u =>
      obtain ⟨d,x,hd,hx,rfl⟩ := step_run.mp hs
      by_cases hu : u = t
      · subst hu
        obtain rfl := Option.some.inj (hc.symm.trans hd)
        refine ⟨x.call,Process.calls_apply_self hc x,?_⟩
        rcases hsent with hpc | hasked
        · simp only [Rpcchannel.call,hpc] at hx
          cases hx
          exact ⟨Or.inr rfl,rfl⟩
        · obtain ⟨hasked',_,hmsg⟩ := (call_statement hx).asked hasked
          exact ⟨Or.inr hasked',hmsg⟩
      · exact ⟨c,by rwa [Process.calls_apply_ne s hu],hsent,rfl⟩
  | expire u =>
      obtain ⟨d,hd,hpc,rfl⟩ := step_expire.mp hs
      by_cases hu : u = t
      · subst hu
        obtain rfl := Option.some.inj (hc.symm.trans hd)
        have hst : Statement u s.channel c _ _ := expire_statement hpc
        obtain ⟨hasked',_,hmsg⟩ := hst.asked (by rw [hpc]; rfl)
        exact ⟨_,Process.calls_apply_self hc _,Or.inr hasked',hmsg⟩
      · exact ⟨c,by rwa [Process.calls_apply_ne s hu],hsent,rfl⟩
  | receive k msg =>
      obtain ⟨d,_,rfl⟩ := step_receive.mp hs
      exact ⟨c,hc,hsent,rfl⟩

/-- A call gets past its `write` by writing. -/
theorem call_unsent {x : Effect κ} (h : ch.call H o t c = .ok x) (hw : x.writes = [])
    (hsent : Sent x.call.pc) : Sent c.pc := by
  cases hpc : c.pc with
  | loadId => exact Or.inl rfl
  | register | wait | get | erase | threw => exact Or.inr rfl
  | entry =>
      simp only [Rpcchannel.call,hpc] at h
      cases hconn : ch.conn <;> rw [hconn] at h <;> cases h <;> simp [Sent,Pc.asked] at hsent
  | construct =>
      simp only [Rpcchannel.call,hpc] at h
      cases hmsg : Message.ofData o c.req with
      | none => simp [hmsg] at h
      | some msg =>
          rw [hmsg] at h
          cases h
          simp [Sent,Pc.asked] at hsent
  | write =>
      simp only [Rpcchannel.call,hpc] at h
      cases hconn : ch.conn with
      | none => simp [hconn] at h
      | some k =>
          rw [hconn] at h
          cases h
          cases hw
  | setType | setId | setHash | setErrcode =>
      simp only [Rpcchannel.call,hpc] at h
      cases h
      simp [Sent,Pc.asked] at hsent
  | returned rc =>
      simp only [Rpcchannel.call,Rpcchannel.getResponse,hpc] at h
      cases h
      rwa [hpc] at hsent

/-- Without a write no request becomes a sent one. -/
theorem unsent_step (hs : step H o s e = some s') (hw : s'.writes = s.writes)
    (hc : s'.calls[t]? = some c) (hsent : Sent c.pc) :
    ∃ d, s.calls[t]? = some d ∧ Sent d.pc := by
  cases e with
  | reghandler name handler | setConnection conn =>
      cases hs
      exact ⟨c,hc,hsent⟩
  | call name req res =>
      cases hs
      rcases getElem?_concat_cases hc with hc | ⟨_,rfl⟩
      · exact ⟨c,hc,hsent⟩
      · simp [Sent,Pc.asked] at hsent
  | run u =>
      obtain ⟨d,x,hd,hx,rfl⟩ := step_run.mp hs
      rcases getElem?_set_cases hc with ⟨rfl,rfl⟩ | ⟨_,hc⟩
      · exact ⟨d,hd,call_unsent hx (by simpa [Process.apply] using hw) hsent⟩
      · exact ⟨c,hc,hsent⟩
  | expire u =>
      obtain ⟨d,hd,hpc,rfl⟩ := step_expire.mp hs
      rcases getElem?_set_cases hc with ⟨rfl,rfl⟩ | ⟨_,hc⟩
      · exact ⟨d,hd,Or.inr (by rw [hpc]; rfl)⟩
      · exact ⟨c,hc,hsent⟩
  | receive k msg =>
      obtain ⟨d,_,rfl⟩ := step_receive.mp hs
      exact ⟨c,hc,hsent⟩

theorem Wrote.step (h : Wrote s t request) (hs : RpcProcess.step H o s e = some s') :
    Wrote s' t request := by
  obtain ⟨c,hc,hsent,rfl⟩ := h
  exact sent_step hs hc hsent

theorem Outcome.step (h : Outcome s hash body res found)
    (hs : RpcProcess.step H o s e = some s') : Outcome s' hash body res found := by
  cases found with
  | none => exact h
  | some f =>
      obtain ⟨hf,req,hreq,hval,hran⟩ := h
      cases step_traffic hs with
      | quiet writes received lookups ran kept => exact ⟨kept _ _ hf,req,hreq,hval,by rwa [ran]⟩
      | request t c k mem pc => exact ⟨hf,req,hreq,hval,hran⟩
      | arrival k msg d done => exact ⟨hf,req,hreq,hval,List.mem_append_left _ hran⟩

theorem Answered.step (h : Answered s r reply) (hs : RpcProcess.step H o s e = some s') :
    Answered s' r reply := by
  obtain ⟨res,hres,houtcome⟩ := h.body
  exact ⟨h.id,h.hash,res,hres,houtcome.step hs⟩

end Steps

/-! ### Replies -/

section Dispatch
variable {o : ByteOrder} {callmap : Callmap} {k : κ} {msg reply : Message} {ch : Rpcchannel κ}
  {d : Dispatched κ} {handled : Handled} {s : Process κ}

/-- `handle` runs a handler it finds, on the whole body. -/
theorem handle_cases (h : handle callmap msg [] = .ok handled) :
    bound callmap msg.getHash = none ∧ handled = ⟨[],[]⟩ ∨
      ∃ f req, bound callmap msg.getHash = some f ∧ msg.dataString = some req ∧
        handled = ⟨f req,[(f,req)]⟩ := by
  unfold handle at h
  split at h
  · rename_i hnone
    exact Or.inl ⟨by rw [bound,hnone]; rfl,(Except.ok.inj h).symm⟩
  · rename_i hempty
    exact Or.inl ⟨by rw [bound,hempty]; rfl,(Except.ok.inj h).symm⟩
  · rename_i f hf
    split at h
    · cases h
    · rename_i req hreq
      exact Or.inr ⟨f,req,bound_eq_some.mpr hf,hreq,(Except.ok.inj h).symm⟩

/-- `dispatch` writes one response to a request and nothing to anything else. -/
theorem dispatch_writes (h : dispatch o callmap (some k) msg ch = .ok d) :
    (¬ HasType msg .request ∧ d.writes = []) ∨
      (HasType msg .request ∧ ∃ handled reply, handle callmap msg [] = .ok handled ∧
        response o msg handled.res = some reply ∧ d = ⟨ch,[(k,reply)],handled.ran⟩) := by
  by_cases hm : HasType msg .request
  · rw [dispatch,if_neg (types_apart hm (by decide)),if_pos hm] at h
    split at h
    · cases h
    · rename_i handled hhandle
      split at h
      · cases h
      · rename_i reply hreply
        exact Or.inr ⟨hm,handled,reply,hhandle,hreply,(Except.ok.inj h).symm⟩
  · refine Or.inl ⟨hm,?_⟩
    by_cases hr : HasType msg .response
    · exact (dispatch_response hr h).2.1
    · rw [dispatch,if_neg hr,if_neg hm] at h
      split_ifs at h
      · split at h
        · cases h
        · cases h
          rfl
      · cases h
        rfl

theorem response_header (h : response o msg handled.res = some reply) :
    HasType reply .response ∧ reply.header.id = msg.header.id ∧
      reply.header.hash = msg.header.hash ∧ reply.dataString = some handled.res := by
  rw [response_eq_build] at h
  obtain ⟨hcoherent,hheader⟩ := Message.build_spec h
  refine ⟨?_,by rw [hheader],by rw [hheader],hcoherent.toCarries.dataString⟩
  rw [HasType,Message.getType,hheader]

theorem answered_of_response (hhandle : handle s.callmap msg [] = .ok handled)
    (h : response o msg handled.res = some reply) (writes : List (κ × Message)) :
    Answered (s.deliver k msg ⟨ch,writes,handled.ran⟩) (msg,bound s.callmap msg.getHash)
      reply := by
  obtain ⟨_,hid,hhash,hdata⟩ := response_header h
  refine ⟨hid,hhash,_,hdata,?_⟩
  rcases handle_cases hhandle with ⟨hnone,rfl⟩ | ⟨f,req,hf,hreq,rfl⟩
  · rw [hnone]
    rfl
  · rw [hf]
    exact ⟨hf,req,hreq,rfl,List.mem_append_right _ (List.mem_singleton_self _)⟩

end Dispatch

/-! ### The histories of a run -/

section Lists
variable [DecidableEq κ] {type : MsgType} {m : Message} {k j : κ}

theorem on_append {α : Type*} (k : κ) (a b : List (κ × α)) :
    on k (a ++ b) = on k a ++ on k b := by
  simp [on]

theorem on_same {α : Type*} (k : κ) (x : α) : on k [(k,x)] = [x] := by
  simp [on]

theorem on_other {α : Type*} (h : j ≠ k) (x : α) : on k [(j,x)] = [] := by
  simp [on,h]

theorem mem_on {α : Type*} {history : List (κ × α)} {x : α} :
    x ∈ on k history ↔ (k,x) ∈ history := by
  constructor
  · intro h
    obtain ⟨r,hr,rfl⟩ := List.mem_map.mp h
    obtain ⟨hmem,hk⟩ := List.mem_filter.mp hr
    rwa [← of_decide_eq_true hk]
  · exact fun h => List.mem_map.mpr ⟨(k,x),List.mem_filter.mpr ⟨h,by simp⟩,rfl⟩

theorem mem_ofType {ms : List Message} : m ∈ ofType type ms ↔ m ∈ ms ∧ HasType m type := by
  simp [ofType]

theorem ofType_append (type : MsgType) (a b : List Message) :
    ofType type (a ++ b) = ofType type a ++ ofType type b := by
  simp [ofType]

theorem ofType_same (h : HasType m type) : ofType type [m] = [m] :=
  List.filter_cons_of_pos (by simpa using h)

theorem ofType_other (h : ¬ HasType m type) : ofType type [m] = [] :=
  List.filter_cons_of_neg (by simpa using h)

theorem mem_asked {ls : List (Message × Option (Bytes → Bytes))}
    {l : Message × Option (Bytes → Bytes)} : l ∈ asked ls ↔ l ∈ ls ∧ HasType l.1 .request := by
  simp [asked]

theorem asked_append (a b : List (Message × Option (Bytes → Bytes))) :
    asked (a ++ b) = asked a ++ asked b := by
  simp [asked]

theorem asked_messages (ls : List (Message × Option (Bytes → Bytes))) :
    (asked ls).map Prod.fst = ofType .request (ls.map Prod.fst) := by
  rw [ofType,List.filter_map]
  rfl

end Lists

/-- The request that a call has written, as it was built. -/
def Requested (H : Bytes → ℕ) (o : ByteOrder) (s : Process κ) (t : ℕ) (request : Message) : Prop :=
  ∃ c, s.calls[t]? = some c ∧ Sent c.pc ∧ c.msg = request ∧ Outgoing.build o
    ⟨c.req,MsgType.request.code,request.header.id,UInt32.ofNat (H c.name),0⟩ = some request

/-- On each connection the responses written answer the requests dispatched. -/
def Replied [DecidableEq κ] (s : Process κ) : Prop :=
  ∀ k, List.Forall₂ (Answered s) (asked (on k s.lookups)) (ofType .response (on k s.writes))

/-- The requests written are those of the calls `ts`, and no other call is past
its `write`. -/
structure Called (s : Process κ) (ts : List ℕ) : Prop where
  distinct : ts.Nodup
  requests : List.Forall₂ (Wrote s) ts (ofType .request (s.writes.map Prod.snd))
  all : ∀ (t : ℕ) (c : Invocation), s.calls[t]? = some c → Sent c.pc → t ∈ ts

section Runs
variable {H : Bytes → ℕ} {o : ByteOrder} {s s' : Process κ} {e : Event κ} {c : Invocation}
  {conn : Option κ} {es : List (Event κ)}

theorem made_request (h : Made H o c) (hpc : c.pc = .write ∨ Sent c.pc) : Outgoing.build o
    ⟨c.req,MsgType.request.code,c.msg.header.id,UInt32.ofNat (H c.name),0⟩ = some c.msg := by
  have hphase : c.pc.numbered = true ∨ c.pc.asked = true := by
    rcases hpc with hpc | hpc | hpc
    · exact Or.inl (by rw [hpc]; rfl)
    · exact Or.inl (by rw [hpc]; rfl)
    · exact Or.inr hpc
  have hwhole : assembled H o c.msg.header.id c = some c.msg := by
    rcases hpc with hpc | hpc | hpc
    · simp only [assembled,hpc]
    · simp only [assembled,hpc]
    · exact assembled_asked hpc _
  exact (h.2 hphase).symm.trans hwhole

theorem built_type {x : Outgoing} {m : Message} {type : MsgType} (h : x.build o = some m)
    (hx : x.type = type.code) : HasType m type := by
  rw [HasType,Message.getType,(Message.build_spec h).2,hx]

theorem Replied.step [DecidableEq κ] (h : Replied s) (hmade : ∀ c ∈ s.calls, Made H o c)
    (hs : RpcProcess.step H o s e = some s') : Replied s' := by
  intro k
  have hold := (h k).imp fun _ _ ha => Answered.step ha hs
  cases step_traffic hs with
  | quiet writes received lookups ran kept => rwa [writes,lookups]
  | request t c j mem pc =>
      have hbuilt := made_request (hmade c (List.mem_of_getElem? mem)) (Or.inl pc)
      have hm : HasType c.msg .request := built_type hbuilt rfl
      have hnot : ¬ HasType c.msg .response := types_apart hm (by decide)
      have hnone : ofType .response (on k [(j,c.msg)]) = [] := by
        by_cases hj : j = k
        · rw [hj,on_same,ofType_other hnot]
        · rw [on_other hj]
          rfl
      change List.Forall₂ _ _ (ofType .response (on k (s.writes ++ [(j,c.msg)])))
      rw [on_append,ofType_append,hnone,List.append_nil]
      exact hold
  | arrival j msg d done =>
      change List.Forall₂ _ (asked (on k (s.lookups ++ [(j,msg,bound s.callmap msg.getHash)])))
        (ofType .response (on k (s.writes ++ d.writes)))
      rw [on_append,on_append,asked_append,ofType_append]
      rcases dispatch_writes done with ⟨hm,hd⟩ | ⟨hm,handled,reply,hhandle,hreply,rfl⟩
      · have hnone : asked (on k [(j,msg,bound s.callmap msg.getHash)]) = [] := by
          by_cases hj : j = k
          · rw [hj,on_same,asked,List.filter_cons_of_neg (by simpa using hm)]
            rfl
          · rw [on_other hj]
            rfl
        rw [hnone,hd]
        exact List.rel_append hold .nil
      · refine List.rel_append hold ?_
        by_cases hj : j = k
        · subst hj
          rw [on_same,on_same,asked,List.filter_cons_of_pos (by simpa using hm),
            ofType_same (response_header hreply).1]
          exact .cons (answered_of_response hhandle hreply _) .nil
        · rw [on_other hj,on_other hj]
          exact .nil

theorem Called.step {ts : List ℕ} (h : Called s ts) (hmade : ∀ c ∈ s.calls, Made H o c)
    (hs : RpcProcess.step H o s e = some s') : ∃ ts', Called s' ts' := by
  have hnew := h.requests.imp fun _ _ hw => Wrote.step hw hs
  cases step_traffic hs with
  | quiet writes received lookups ran kept =>
      refine ⟨ts,h.distinct,by rwa [writes],?_⟩
      intro t c hc hsent
      obtain ⟨d,hd,hsent⟩ := unsent_step hs writes hc hsent
      exact h.all t d hd hsent
  | request t c j mem pc =>
      have hbuilt := made_request (hmade c (List.mem_of_getElem? mem)) (Or.inl pc)
      refine ⟨ts ++ [t],?_,?_,?_⟩
      · refine List.nodup_append.mpr ⟨h.distinct,List.nodup_singleton t,?_⟩
        intro u hu v hv heq
        rw [List.mem_singleton] at hv
        subst heq hv
        -- a call that has written is past its `write`
        obtain ⟨m,_,d,hd,hsent,_⟩ := MatchedLists.exists_right h.requests hu
        obtain rfl := Option.some.inj (mem.symm.trans hd)
        rcases hsent with hpc | hpc <;> rw [pc] at hpc <;> cases hpc
      · simp only [Process.apply,List.map_append,ofType_append]
        refine List.rel_append hnew ?_
        rw [List.map_singleton,ofType_same (built_type hbuilt rfl)]
        exact .cons ⟨_,Process.calls_apply_self mem _,Or.inl rfl,rfl⟩ .nil
      · intro u d hd hsent
        rcases getElem?_set_cases hd with ⟨rfl,_⟩ | ⟨_,hd⟩
        · simp
        · exact List.mem_append_left _ (h.all u d hd hsent)
  | arrival j msg d done =>
      refine ⟨ts,h.distinct,?_,h.all⟩
      have hnone : ofType .request (d.writes.map Prod.snd) = [] := by
        rcases dispatch_writes done with ⟨_,hd⟩ | ⟨_,handled,reply,_,hreply,rfl⟩
        · rw [hd]
          rfl
        · exact ofType_other (types_apart (response_header hreply).1 (by decide))
      simp only [Process.deliver,List.map_append,ofType_append,hnone,List.append_nil]
      exact hnew

theorem run_numbered (h : exec (step H o) (init conn) es = some s)
    (hlen : s.calls.length < 2 ^ 32) : Numbered s := by
  have hnumbered : s.calls.length < 2 ^ 32 → Numbered s := by
    apply exec_preserves (step H o) (P := fun s => s.calls.length < 2 ^ 32 → Numbered s)
      ?_ (fun _ => show Numbered (init conn) from TicketCounters.Drawn.nil) h
    intro s e s' hs hstep hlen
    have hle := calls_length_step hstep
    exact (hs (by omega)).change (by omega) (step_change hstep)
  exact hnumbered hlen

theorem Wrote.requested {t : ℕ} {request : Message} (h : Wrote s t request)
    (hmade : ∀ c ∈ s.calls, Made H o c) : Requested H o s t request := by
  obtain ⟨c,hc,hsent,rfl⟩ := h
  exact ⟨c,hc,hsent,rfl,made_request (hmade c (List.mem_of_getElem? hc)) (Or.inr hsent)⟩

theorem ticket_of_sent (h : Sent c.pc) : ticket c = some c.msg.header.id.toNat := by
  rcases h with hpc | hpc
  · exact ticket_of_numbered (by rw [hpc]; rfl)
  · exact ticket_of_asked hpc

theorem Requested.same {t u : ℕ} {m m' : Message} (h : Requested H o s t m)
    (h' : Requested H o s u m') (hs : Numbered s) (hid : m.header.id = m'.header.id) : t = u := by
  obtain ⟨c,hc,hsent,rfl,_⟩ := h
  obtain ⟨d,hd,hsent',rfl,_⟩ := h'
  exact same_ticket hs hc hd (ticket_of_sent hsent) (ticket_of_sent hsent') hid

/-- In every run, however calls and the messages of all connections interleave,
the responses written on a connection answer the requests dispatched from it one
by one, in order. -/
theorem run_replied [DecidableEq κ] (h : exec (step H o) (init conn) es = some s) : Replied s := by
  apply exec_reached (step H o) (P := Replied) ?_ (fun _ => .nil) h
  exact fun es s e t hes hs hstep => hs.step (run_made hes) hstep

theorem run_called (h : exec (step H o) (init conn) es = some s) : ∃ ts, Called s ts := by
  apply exec_reached (step H o) (P := fun s => ∃ ts, Called s ts) ?_ ?_ h
  · intro es s e t hes hs hstep
    obtain ⟨ts,hts⟩ := hs
    exact hts.step (run_made hes) hstep
  · refine ⟨[],List.nodup_nil,.nil,?_⟩
    intro t c hc
    cases hc

/-- Every message passed to `Write` was built. -/
theorem run_built (h : exec (step H o) (init conn) es = some s) :
    ∀ w ∈ s.writes, Built o w.2 := by
  apply exec_reached (step H o) (P := fun s => ∀ w ∈ s.writes, Built o w.2) ?_ ?_ h
  · intro es s e t hes hs hstep
    cases step_traffic hstep with
    | quiet writes received lookups ran kept => rwa [writes]
    | request t c k mem pc =>
        have hbuilt := made_request (run_made hes c (List.mem_of_getElem? mem)) (Or.inl pc)
        exact forall_mem_concat hs ⟨_,hbuilt⟩
    | arrival k msg d done =>
        rcases dispatch_writes done with ⟨_,hnil⟩ | ⟨_,handled,reply,_,hreply,rfl⟩
        · rw [Process.deliver,hnil,List.append_nil]
          exact hs
        · rw [response_eq_build] at hreply
          exact forall_mem_concat hs ⟨⟨_,_,_,_,_⟩,hreply⟩
  · intro w hw
    cases hw

theorem ids_distinct (h : exec (step H o) (init conn) es = some s)
    (hlen : s.calls.length < 2 ^ 32) :
    ((ofType .request (s.writes.map Prod.snd)).map fun m => m.header.id).Nodup := by
  obtain ⟨ts,hts⟩ := run_called h
  have hnumbered := run_numbered h hlen
  have hmade := run_made h
  apply MatchedLists.nodup_right hts.requests hts.distinct
  intro t m u m' hw hw' hid
  exact (hw.requested hmade).same (hw'.requested hmade) hnumbered hid

end Runs

/-- In any run the calls that are past their `write` have written one request
each, which carries their arguments, and below `2 ^ 32` calls the ids differ. -/
theorem requests_of_calls (H : Bytes → ℕ) (o : ByteOrder) (conn : Option κ) (es : List (Event κ))
    (s : Process κ) (hrun : exec (step H o) (init conn) es = some s) :
    (∃ ts : List ℕ, ts.Nodup ∧
      List.Forall₂ (Requested H o s) ts (ofType .request (s.writes.map Prod.snd)) ∧
      ∀ (t : ℕ) (c : Invocation), s.calls[t]? = some c → Sent c.pc → t ∈ ts) ∧
    (s.calls.length < 2 ^ 32 →
      ((ofType .request (s.writes.map Prod.snd)).map fun m => m.header.id).Nodup) := by
  obtain ⟨ts,hts⟩ := run_called hrun
  have hrequested := hts.requests.imp fun _ _ hw => hw.requested (run_made hrun)
  exact ⟨⟨ts,hts.distinct,hrequested,hts.all⟩,ids_distinct hrun⟩

/-- Two calls whose statements interleave so that they wait under one id. -/
theorem requests_of_calls_colliding :
    ∃ s ∈ exec (step (fun _ => 0) .little) (init (some 0)) collidingRun,
      s.writes.length = 2 ∧ (s.calls.length < 2 ^ 32 →
        ((ofType .request (s.writes.map Prod.snd)).map fun m => m.header.id).Nodup) := by
  have hrun : ∃ s ∈ exec (step (fun _ => 0) .little) (init (some 0)) collidingRun,
      s.writes.length = 2 := by decide
  obtain ⟨s,hs,hlen⟩ := hrun
  exact ⟨s,hs,hlen,(requests_of_calls _ _ _ _ s hs).2⟩

end SindiaRpc.ProcessWrites
