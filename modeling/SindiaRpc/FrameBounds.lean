import SindiaRpc.RpcProcess
import SindiaRpc.ListUpdates

/-!
# Frames the program builds

`Call` and `dispatch` pass a request or a handler's result to the constructor
of `Message` whatever its length; only the reading side knows a limit. What is
built is a frame the reader accepts for lengths up to 4076, and for longer
strings the constructor's copy leaves `m_buffer`.
-/
namespace SindiaRpc.FrameBounds
open MessageFrames DispatcherTable PromiseTables RpcChannel RpcProcess GuardedRuns ListUpdates

/-- On every build with this byte order `parse_header` accepts the header of
the frame, and the body it announces is the rest of the frame. -/
def Readable (o : ByteOrder) (msg : Message) : Prop :=
  ∀ (abi : Abi) (m : Message), abi.order = o → m.buffer.slice 0 20 = (msg.frame abi).take 20 →
    ∃ m', m.parseHeader abi = (true,m') ∧ (msg.frame abi).length = 20 + m'.dataLength

theorem readable_of_coherent {o : ByteOrder} {data : Bytes} {msg : Message}
    (h : msg.Coherent o data) : Readable o msg := by
  intro abi m horder hslice
  subst horder
  have hfits := h.fits
  have hframe := h.frame abi
  have himage : m.buffer.slice 0 20 = msg.header.image abi.order := by
    rw [hslice,hframe,List.take_left' (Header.length_image _ _)]
  have hannounced : m.announced abi = data.length := by
    rw [← h.length]
    have hlength := congrArg Header.length (Header.ofImage_image abi.order msg.header)
    rw [← himage] at hlength
    exact congrArg UInt32.toNat hlength
  have haccept : abi.size (m.announced abi + 20) ≤ 4096 := by
    rw [hannounced,abi.size_of_lt (by omega)]
    omega
  refine ⟨_,Message.parseHeader_accepts haccept,?_⟩
  rw [hframe,List.length_append,Header.length_image,Message.dataLength,hannounced]

theorem readable_build {o : ByteOrder} {data : Bytes} {type id hash error : UInt32} {msg : Message}
    (h : Message.build o data type id hash error = some msg) : Readable o msg :=
  readable_of_coherent (Message.build_spec h).1

/-- The order of the setters in `dispatch` makes no difference. -/
theorem response_eq_build (o : ByteOrder) (msg : Message) (res : Bytes) :
    response o msg res =
      Message.build o res MsgType.response.code msg.header.id msg.header.hash 0 := by
  simp only [response,Message.build,Message.setType,Message.setHash,Message.setId,
    Message.setErrcode,Message.storeHeader_storeHeader,Message.storeHeader_header,Message.getHash,
    Message.getId,UInt32.ofNat_toNat]

/-! ### The statements of one call in a row -/

variable {κ : Type*}

/-- `n` statements of invocation `t`, with everything they write. -/
def thread (H : Bytes → ℕ) (o : ByteOrder) (t : ℕ) :
    ℕ → Rpcchannel κ → Invocation → Except Fault (Effect κ)
  | 0, ch, c => .ok ⟨ch,c,[]⟩
  | n + 1, ch, c =>
      match ch.call H o t c with
      | .error fault => .error fault
      | .ok e =>
          match thread H o t n e.channel e.call with
          | .error fault => .error fault
          | .ok e' => .ok ⟨e'.channel,e'.call,e.writes ++ e'.writes⟩

/-- The request of a call that gets the next id. -/
def request (H : Bytes → ℕ) (o : ByteOrder) (ch : Rpcchannel κ) (c : Invocation) :
    Option Message :=
  Message.build o c.req MsgType.request.code (ch.callid + 1) (UInt32.ofNat (H c.name)) 0

section Calls
variable {H : Bytes → ℕ} {o : ByteOrder} {s : Process κ} {t : ℕ} {ch : Rpcchannel κ}
  {c : Invocation} {k : κ} {msg : Message}

theorem apply_apply (s : Process κ) (t : ℕ) (e e' : Effect κ) :
    (s.apply t e).apply t e' = s.apply t ⟨e'.channel,e'.call,e.writes ++ e'.writes⟩ := by
  simp [Process.apply]

/-- A run of one call's statements in the process is its thread. -/
theorem exec_thread (n : ℕ) (hc : s.calls[t]? = some c) :
    exec (step H o) s (List.replicate n (.run t)) =
      (thread H o t n s.channel c).toOption.map (s.apply t) := by
  induction n generalizing s c with
  | zero =>
      obtain ⟨hlt,hget⟩ := List.getElem?_eq_some_iff.mp hc
      simp [thread,Except.toOption,Process.apply,← hget]
  | succ n ih =>
      rw [List.replicate_succ,exec_cons]
      cases hcall : s.channel.call H o t c with
      | error fault => simp [step,hc,hcall,thread,Except.toOption]
      | ok e =>
          have hstep : step H o s (.run t) = some (s.apply t e) :=
            step_run.mpr ⟨c,e,hc,hcall,rfl⟩
          rw [hstep,Option.bind_some,ih (Process.calls_apply_self hc e)]
          simp only [thread,hcall]
          cases hrest : thread H o t n e.channel e.call with
          | error fault => simp [Process.apply,hrest,Except.toOption]
          | ok e' =>
              simp only [Process.apply,hrest,Except.toOption,Option.map_some]
              exact congrArg some (apply_apply s t e e')

/-- Without a connection `Call` returns at once. -/
theorem thread_unconnected (hpc : c.pc = .entry) (hconn : ch.conn = none) :
    thread H o t 7 ch c = .ok ⟨ch,{c with pc := .returned .rpcNoConn},[]⟩ := by
  simp [thread,Rpcchannel.call,Rpcchannel.getResponse,hpc,hconn]

/-- Seven statements write the request. -/
theorem thread_request (hpc : c.pc = .entry) (hconn : ch.conn = some k)
    (hmsg : request H o ch c = some msg) :
    thread H o t 7 ch c = .ok ⟨{ch with callid := ch.callid + 1},
      {c with pc := .loadId, msg := msg},[(k,msg)]⟩ := by
  simp only [request,Message.build,Option.map_eq_some_iff] at hmsg
  obtain ⟨m,hm,rfl⟩ := hmsg
  simp [thread,Rpcchannel.call,hpc,hconn,hm]

/-- A request that is too long is copied past the end of `m_buffer`. -/
theorem thread_overflow (hpc : c.pc = .entry) (hconn : ch.conn = some k)
    (hmsg : request H o ch c = none) : thread H o t 7 ch c = .error .outOfBounds := by
  simp only [request,Message.build,Option.map_eq_none_iff] at hmsg
  simp [thread,Rpcchannel.call,hpc,hconn,hmsg]

end Calls

/-! ### Both senders -/

/-- `Call` reports an error without writing anything, or writes a readable
frame. -/
def CallFits (H : Bytes → ℕ) (o : ByteOrder) (t : ℕ) (ch : Rpcchannel κ) (c : Invocation) : Prop :=
  ∃ e, thread H o t 7 ch c = .ok e ∧
    ((∃ rc, rc ≠ .rpcOk ∧ e.call.pc = .returned rc ∧ e.writes = []) ∨
      ∃ k msg, e.call.pc = .loadId ∧ e.writes = [(k,msg)] ∧ Readable o msg)

/-- `dispatch` stays inside `m_buffer`, and what it writes is a readable frame
or reports an error. -/
def DispatchFits (o : ByteOrder) (callmap : Callmap) (conn : Option κ) (msg : Message)
    (ch : Rpcchannel κ) : Prop :=
  dispatch o callmap conn msg ch ≠ .error .outOfBounds ∧
    ∀ d, dispatch o callmap conn msg ch = .ok d →
      ∀ w ∈ d.writes, Readable o w.2 ∨ w.2.getErrcode ≠ 0

section Senders
variable {H : Bytes → ℕ} {o : ByteOrder} {t : ℕ} {ch : Rpcchannel κ} {c : Invocation}
  {callmap : Callmap} {conn : Option κ} {k : κ} {msg : Message} {body : Bytes}

theorem callFits_iff (hpc : c.pc = .entry) :
    CallFits H o t ch c ↔ ch.conn = none ∨ c.req.length ≤ 4076 := by
  cases hconn : ch.conn with
  | none =>
      simp only [true_or,iff_true]
      refine ⟨_,thread_unconnected hpc hconn,Or.inl ⟨.rpcNoConn,?_,rfl,rfl⟩⟩
      simp
  | some k =>
      simp only [reduceCtorEq,false_or]
      cases hmsg : request H o ch c with
      | none =>
          have hlong : 4076 < c.req.length := Message.build_eq_none.mp hmsg
          constructor
          · intro hex
            rcases hex with ⟨e,he,_⟩
            rw [thread_overflow hpc hconn hmsg] at he
            cases he
          · intro hle
            omega
      | some m =>
          have hshort : c.req.length ≤ 4076 := (Message.build_spec hmsg).1.fits
          simp only [hshort,iff_true]
          exact ⟨_,thread_request hpc hconn hmsg,
            Or.inr ⟨k,m,rfl,rfl,readable_build hmsg⟩⟩

/-- A request is answered, or its answer does not fit. -/
theorem dispatch_request {handled : Handled} (hm : HasType msg .request)
    (hhandle : handle callmap msg [] = .ok handled) :
    dispatch o callmap conn msg ch =
      match response o msg handled.res with
      | none => .error .outOfBounds
      | some resp => .ok ⟨ch,conn.toList.map fun k => (k,resp),handled.ran⟩ := by
  rw [dispatch,if_neg (types_apart hm (by decide)),if_pos hm,hhandle]
  simp only
  cases response o msg handled.res with
  | none => rfl
  | some resp => cases conn <;> rfl

/-- A request whose answer fits is answered on its connection. -/
theorem dispatch_answers {reply : Message} (hm : HasType msg .request)
    (hbody : msg.dataString = some body)
    (hreply : response o msg (result callmap msg.getHash body) = some reply) :
    dispatch o callmap (some k) msg ch = .ok ⟨ch,[(k,reply)],
      (bound callmap msg.getHash).toList.map fun h => (h,body)⟩ := by
  rw [dispatch_request hm (handle_eq callmap hbody)]
  simp only [hreply]
  rfl

/-- Only a request makes `dispatch` build a frame. -/
theorem dispatchFits_other (hbody : msg.dataString = some body) (hm : ¬ HasType msg .request) :
    DispatchFits o callmap conn msg ch := by
  unfold DispatchFits dispatch
  rw [if_neg hm,handle_eq callmap hbody]
  split_ifs with hr hn
  · simp only [Rpcchannel.setResponse,hbody]
    cases hfind : ch.prommap.find (UInt32.ofNat msg.getId) with
    | none => simp
    | some prom => cases hset : ch.prommap.setValue prom body <;> simp [hset]
  · simp
  · simp

theorem dispatchFits_iff (hbody : msg.dataString = some body) :
    DispatchFits o callmap conn msg ch ↔ ¬ HasType msg .request ∨
      ∀ h, callmap.lookup msg.getHash = some (some h) → (h body).length ≤ 4076 := by
  by_cases hm : HasType msg .request
  · have hcond : (∀ h, callmap.lookup msg.getHash = some (some h) → (h body).length ≤ 4076) ↔
        (result callmap msg.getHash body).length ≤ 4076 := by
      simp only [← bound_eq_some,result]
      cases bound callmap msg.getHash with
      | none => simp
      | some h => simp
    rw [or_iff_right (not_not.mpr hm),hcond,DispatchFits,
      dispatch_request hm (handle_eq callmap hbody),
      response_eq_build]
    cases hresp : Message.build o (result callmap msg.getHash body) MsgType.response.code
      msg.header.id msg.header.hash 0 with
    | none =>
        have hlong := Message.build_eq_none.mp hresp
        simp only [ne_eq,not_true_eq_false,false_and,false_iff]
        omega
    | some resp =>
        have hshort := (Message.build_spec hresp).1.fits
        simp only [hshort,iff_true]
        refine ⟨by simp,?_⟩
        intro d hd w hw
        cases hd
        obtain ⟨k,_,rfl⟩ := List.mem_map.mp hw
        exact Or.inl (readable_build hresp)
  · exact iff_of_true (dispatchFits_other hbody hm) (Or.inl hm)

end Senders

/-- `Call` and `dispatch` keep to the buffer and to the reader's limit exactly
for requests and results of at most 4076 bytes. -/
theorem frames_fit_iff (H : Bytes → ℕ) (o : ByteOrder) (ch : Rpcchannel κ) :
    (∀ t c, c.pc = .entry →
      (CallFits H o t ch c ↔ ch.conn = none ∨ c.req.length ≤ 4076)) ∧
    ∀ callmap conn (msg : Message) body, msg.dataString = some body →
      (DispatchFits o callmap conn msg ch ↔ ¬ HasType msg .request ∨
        ∀ h, callmap.lookup msg.getHash = some (some h) → (h body).length ≤ 4076) :=
  ⟨fun _ _ hpc => callFits_iff hpc,fun _ _ _ _ hbody => dispatchFits_iff hbody⟩

/-- A request with one byte. -/
def shortRequest : Message := (Message.build .little [7] 1 1 5 0).getD .empty

/-- The handler bound to its hash returns the request's body. -/
theorem frames_fit_iff_short :
    (CallFits (fun _ => 5) .little 0 ({conn := some 0} : Rpcchannel ℕ)
        {name := [1], req := [7], res := []} ↔ some 0 = (none : Option ℕ) ∨ [7].length ≤ 4076) ∧
      bound (reghandler (fun _ => 5) [1] (some id) ∅) shortRequest.getHash = some id ∧
      (DispatchFits .little (reghandler (fun _ => 5) [1] (some id) ∅) (some 0) shortRequest
          ({conn := none} : Rpcchannel ℕ) ↔
        ¬ HasType shortRequest .request ∨
          ∀ h, (reghandler (fun _ => 5) [1] (some id) ∅).lookup shortRequest.getHash =
            some (some h) → (h [7]).length ≤ 4076) := by
  refine ⟨(frames_fit_iff (fun _ => 5) _ _).1 0 _ rfl,?_,
    (frames_fit_iff (fun _ => 5) _ _).2 _ (some 0) shortRequest [7] (by decide)⟩
  rw [bound,lookup_reghandler]
  rfl

/-- A request and a handler's result of 4077 bytes. -/
theorem overlong_frames :
    (¬ ∀ (ch : Rpcchannel ℕ) (c : Invocation), c.pc = .entry →
      CallFits (fun _ => 5) .little 0 ch c) ∧
    ¬ ∀ (callmap : Callmap) (msg : Message) (ch : Rpcchannel ℕ), msg.dataString ≠ none →
      DispatchFits .little callmap (some 0) msg ch := by
  constructor
  · intro h
    have hfits := (callFits_iff rfl).mp
      (h {conn := some 0} {name := [1], req := List.replicate 4077 0, res := []} rfl)
    rcases hfits with hnone | hlen
    · cases hnone
    · rw [List.length_replicate] at hlen
      omega
  · intro h
    let flood : Bytes → Bytes := fun _ => List.replicate 4077 0
    let callmap := reghandler (fun _ => 5) [1] (some flood) ∅
    have hbody : shortRequest.dataString = some [7] := by decide
    have hlookup : callmap.lookup shortRequest.getHash = some (some flood) := by
      rw [lookup_reghandler]
      rfl
    have hfits := (dispatchFits_iff hbody).mp
      (h callmap shortRequest {conn := none} (by simp [hbody]))
    rcases hfits with hm | hlen
    · exact hm (by decide)
    · have hle := hlen flood hlookup
      rw [List.length_replicate] at hle
      omega

end SindiaRpc.FrameBounds
