import SindiaRpc.EndToEnd
import SindiaRpc.Routing

/-!
# The replies to a sequence of messages

Every request that a read loop dispatches is answered on its connection, in
order, with its own id and hash; nothing else that is dispatched writes, a
reply in particular.
-/
namespace SindiaRpc.Replies
open MessageFrames DispatcherTable PromiseTables RpcChannel RpcProcess GuardedRuns FrameBounds
  ResponseOrder StreamReading EndToEnd Routing

variable {κ : Type*}

/-- `reply` answers `request` with the result of the handler bound to its hash,
or empty. -/
structure Answers (callmap : Callmap) (request reply : Message) : Prop where
  type : HasType reply .response
  id : reply.header.id = request.header.id
  hash : reply.header.hash = request.header.hash
  errcode : reply.getErrcode = 0
  body : ∃ req, request.dataString = some req ∧
    reply.dataString = some (result callmap request.getHash req)

/-- Dispatching what is read of `reply` writes nothing, in any process. -/
def Silent (H : Bytes → ℕ) (o : ByteOrder) (κ : Type*) (reply : Message) : Prop :=
  ∀ d, ReadAs o reply d → ∀ (q q' : Process κ) (k : κ), step H o q (.receive k d) = some q' →
    q'.writes = q.writes

/-- `SetResponse` does not throw on what is dispatched. -/
def Calm (s : Process κ) : Event κ → Prop
  | .receive _ msg => HasType msg .response → ∃ ch, s.channel.setResponse msg = .ok ch
  | _ => True

section Step
variable {H : Bytes → ℕ} {o : ByteOrder} {s s' : Process κ} {k : κ} {msg reply : Message}
  {body : Bytes}

theorem response_writes (hm : HasType msg .response)
    (hs : step H o s (.receive k msg) = some s') : s'.writes = s.writes := by
  obtain ⟨d,hd,rfl⟩ := step_receive.mp hs
  rw [Process.deliver,(dispatch_response hm hd).2.1,List.append_nil]

/-- The frame that answers a request. -/
theorem response_answers (hbody : msg.dataString = some body)
    (hreply : response o msg (result s.callmap msg.getHash body) = some reply) :
    Answers s.callmap msg reply ∧ Silent H o κ reply := by
  rw [response_eq_build] at hreply
  obtain ⟨hcoherent,hheader⟩ := Message.build_spec hreply
  refine ⟨⟨?_,?_,?_,?_,body,hbody,hcoherent.toCarries.dataString⟩,?_⟩
  · rw [HasType,Message.getType,hheader]
  · rw [hheader]
  · rw [hheader]
  · rw [Message.getErrcode,hheader]
    rfl
  · intro d hd q q' k' hq
    exact response_writes (fields_of_readAs (x := ⟨_,_,_,_,_⟩) hreply hd).1 hq

/-- One message is dispatched. -/
theorem step_replies (hbody : msg.dataString = some body)
    (hshort : (result s.callmap msg.getHash body).length ≤ 4076) (hcalm : Calm s (.receive k msg)) :
    ∃ s' replies, step H o s (.receive k msg) = some s' ∧ s'.callmap = s.callmap ∧
      s'.writes = s.writes ++ replies.map (fun reply => (k,reply)) ∧
      List.Forall₂ (Answers s.callmap) ([msg].filter fun m => HasType m .request) replies ∧
      ∀ reply ∈ replies, Silent H o κ reply := by
  by_cases hm : HasType msg .request
  · cases hreply : response o msg (result s.callmap msg.getHash body) with
    | none =>
        rw [response_eq_build,Message.build_eq_none] at hreply
        omega
    | some reply =>
        obtain ⟨hanswers,hsilent⟩ := response_answers (H := H) hbody hreply
        refine ⟨_,[reply],step_receive.mpr ⟨_,dispatch_answers hm hbody hreply,rfl⟩,rfl,rfl,?_,
          by simpa using hsilent⟩
        rw [List.filter_cons_of_pos (by simpa using hm)]
        exact .cons hanswers .nil
  · have hquiet : ∃ d, dispatch o s.callmap (some k) msg s.channel = .ok d ∧ d.writes = [] := by
      unfold dispatch
      rw [if_neg hm]
      split_ifs with hr hn
      · obtain ⟨ch,hch⟩ := hcalm hr
        exact ⟨⟨ch,[],[]⟩,by rw [hch],rfl⟩
      · rw [handle_eq s.callmap hbody]
        exact ⟨_,rfl,rfl⟩
      · exact ⟨_,rfl,rfl⟩
    obtain ⟨d,hd,hwrites⟩ := hquiet
    refine ⟨_,[],step_receive.mpr ⟨d,hd,rfl⟩,rfl,?_,by simp [hm],by simp⟩
    simp [Process.deliver,hwrites]

end Step

/-- Whatever a connection delivers, its requests are answered one by one in
order, everything else is not, and the answers are not answered. -/
theorem one_reply_per_request (H : Bytes → ℕ) (o : ByteOrder) (s : Process κ) (k : κ)
    (msgs : List Message) (hdata : ∀ msg ∈ msgs, msg.dataString ≠ none)
    (hshort : ∀ msg ∈ msgs, ∀ body, msg.dataString = some body →
      (result s.callmap msg.getHash body).length ≤ 4076)
    (hcalm : AllSteps (step H o) Calm s (msgs.map (.receive k))) :
    ∃ s' replies, exec (step H o) s (msgs.map (.receive k)) = some s' ∧ s'.callmap = s.callmap ∧
      s'.writes = s.writes ++ replies.map (fun reply => (k,reply)) ∧
      List.Forall₂ (Answers s.callmap) (msgs.filter fun m => HasType m .request) replies ∧
      ∀ reply ∈ replies, Silent H o κ reply := by
  induction msgs generalizing s with
  | nil => exact ⟨s,[],rfl,rfl,by simp,.nil,by simp⟩
  | cons msg msgs ih =>
      obtain ⟨body,hbody⟩ := Option.ne_none_iff_exists'.mp (hdata msg (by simp))
      obtain ⟨s₁,first,hs₁,hmap₁,hwrites₁,hfirst,hsilent₁⟩ :=
        step_replies (o := o) hbody (hshort msg (by simp) body hbody) hcalm.1
      obtain ⟨s',rest,hs',hmap,hwrites,hrest,hsilent⟩ := ih s₁
        (fun m hm => hdata m (by simp [hm]))
        (fun m hm => by rw [hmap₁]; exact hshort m (by simp [hm])) (hcalm.2 s₁ hs₁)
      refine ⟨s',first ++ rest,(exec_cons_eq_some _).mpr ⟨s₁,hs₁,hs'⟩,hmap.trans hmap₁,?_,?_,?_⟩
      · rw [hwrites,hwrites₁,List.append_assoc,List.map_append]
      · rw [hmap₁] at hrest
        rw [show msg :: msgs = [msg] ++ msgs from rfl,List.filter_append]
        exact List.rel_append hfirst hrest
      · exact List.forall_mem_append.mpr ⟨hsilent₁,hsilent⟩

/-- A response nobody waits for and a request. -/
theorem one_reply_per_request_mixed :
    ∃ s' replies, exec (step (fun _ => 5) .little) echoing
        ([firstResponse,shortRequest].map (.receive 0)) = some s' ∧ s'.callmap = echoing.callmap ∧
      s'.writes = echoing.writes ++ replies.map (fun reply => (0,reply)) ∧
      List.Forall₂ (Answers echoing.callmap)
        ([firstResponse,shortRequest].filter fun m => HasType m .request) replies ∧
      ∀ reply ∈ replies, Silent (fun _ => 5) .little ℕ reply := by
  apply one_reply_per_request _ _ echoing 0 [firstResponse,shortRequest] (by decide)
  · intro msg hmsg body hbody
    have hmsgs : msg = firstResponse ∨ msg = shortRequest := by simpa using hmsg
    rcases hmsgs with rfl | rfl
    · obtain rfl := Option.some.inj
        (hbody.symm.trans (by decide : firstResponse.dataString = some [9]))
      decide
    · obtain rfl := Option.some.inj
        (hbody.symm.trans (by decide : shortRequest.dataString = some [7]))
      decide
  · refine ⟨fun _ => ⟨_,rfl⟩,fun t _ => ⟨?_,fun _ _ => trivial⟩⟩
    intro hm
    exact absurd hm (by decide)

end SindiaRpc.Replies
