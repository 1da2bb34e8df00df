import SindiaRpc.RpcChannel
import SindiaRpc.GuardedRuns
import SindiaRpc.ListUpdates

/-!
# A process: dispatcher, channel and calls

`Dispatcher` and `Rpcchannel` are singletons of the process, shared by all its
connections. The read loops call `dispatch` for every message they complete,
other threads call `Rpcchannel::Call`, `SetConnection` and `reghandler`, and
all of these interleave. A step that faults has no successor. The connections
are names here: what is passed to their `Write` and what arrived on them are
histories.
-/
namespace SindiaRpc.RpcProcess
open MessageFrames DispatcherTable KeyedRoutes PromiseTables RpcChannel GuardedRuns ListUpdates

structure Dispatched (κ : Type*) where
  channel : Rpcchannel κ
  writes : List (κ × Message) := []
  ran : List ((Bytes → Bytes) × Bytes) := []

/-- The answer to a request, with its setters in the order of `dispatch`. -/
def response (o : ByteOrder) (msg : Message) (res : Bytes) : Option Message :=
  (Message.ofData o res).map fun resp =>
    (((resp.setType o MsgType.response.code).setHash o (UInt32.ofNat msg.getHash)).setId o
      (UInt32.ofNat msg.getId)).setErrcode o 0

abbrev HasType (msg : Message) (type : MsgType) : Prop := msg.getType = type.code.toNat

theorem types_apart {msg : Message} {type type' : MsgType} (h : HasType msg type)
    (hne : type ≠ type') : ¬ HasType msg type' := by
  intro h'
  apply hne
  have heq : type.code.toNat = type'.code.toNat := h.symm.trans h'
  cases type <;> cases type' <;> first | rfl | exact absurd heq (by decide)

section Dispatch
variable {κ : Type*}

/-- `dispatch`. The answer is built before `conn` is looked at. -/
def dispatch (o : ByteOrder) (callmap : Callmap) (conn : Option κ) (msg : Message)
    (ch : Rpcchannel κ) : Except Fault (Dispatched κ) :=
  if HasType msg .response then
    match ch.setResponse msg with
    | .error fault => .error fault
    | .ok ch => .ok ⟨ch,[],[]⟩
  else if HasType msg .request then
    match handle callmap msg [] with
    | .error fault => .error fault
    | .ok handled =>
        match response o msg handled.res with
        | none => .error .outOfBounds
        | some resp =>
            match conn with
            | none => .ok ⟨ch,[],handled.ran⟩
            | some k => .ok ⟨ch,[(k,resp)],handled.ran⟩
  else if HasType msg .notify then
    match handle callmap msg [] with
    | .error fault => .error fault
    | .ok handled => .ok ⟨ch,[],handled.ran⟩
  else .ok ⟨ch,[],[]⟩

theorem dispatch_response {o : ByteOrder} {callmap : Callmap} {conn : Option κ} {msg : Message}
    {ch : Rpcchannel κ} {d : Dispatched κ} (hm : HasType msg .response)
    (h : dispatch o callmap conn msg ch = .ok d) :
    ch.setResponse msg = .ok d.channel ∧ d.writes = [] ∧ d.ran = [] := by
  rw [dispatch,if_pos hm] at h
  split at h
  · cases h
  · rename_i ch' hset
    cases h
    exact ⟨hset,rfl,rfl⟩

theorem dispatch_other {o : ByteOrder} {callmap : Callmap} {conn : Option κ} {msg : Message}
    {ch : Rpcchannel κ} {d : Dispatched κ} (hm : ¬ HasType msg .response)
    (h : dispatch o callmap conn msg ch = .ok d) : d.channel = ch := by
  rw [dispatch,if_neg hm] at h
  split_ifs at h
  · split at h
    · cases h
    · split at h
      · cases h
      · split at h <;> (cases h; rfl)
  · split at h <;> cases h
    rfl
  · cases h
    rfl

end Dispatch

structure Process (κ : Type*) where
  callmap : Callmap := ∅
  channel : Rpcchannel κ
  calls : List Invocation := []
  /-- Messages passed to `Write`, with their connection. -/
  writes : List (κ × Message) := []
  /-- Handlers that ran, with their arguments. -/
  ran : List ((Bytes → Bytes) × Bytes) := []
  /-- Messages dispatched, with the connection they came from. -/
  received : List (κ × Message) := []
  /-- The same with the handler that was bound to the hash of each at that time. -/
  lookups : List (κ × Message × Option (Bytes → Bytes)) := []

inductive Event (κ : Type*) where
  | reghandler (name : Bytes) (handler : Handler)
  | setConnection (conn : Option κ)
  /-- A thread enters `Call`. -/
  | call (name req res : Bytes)
  /-- Invocation `t` executes its next statement. -/
  | run (t : ℕ)
  /-- The time of invocation `t`, which is in `wait_for`, is up. -/
  | expire (t : ℕ)
  /-- A message read from connection `k` is dispatched. -/
  | receive (k : κ) (msg : Message)

section Step
variable {κ : Type*}

def Process.apply (t : ℕ) (s : Process κ) (e : Effect κ) : Process κ :=
  {s with channel := e.channel, calls := s.calls.set t e.call, writes := s.writes ++ e.writes}

theorem Process.calls_apply_self {s : Process κ} {t : ℕ} {c : Invocation}
    (hc : s.calls[t]? = some c) (e : Effect κ) : (s.apply t e).calls[t]? = some e.call :=
  getElem?_set_of_eq_some hc

theorem Process.calls_apply_ne (s : Process κ) {t u : ℕ} (h : t ≠ u) (e : Effect κ) :
    (s.apply t e).calls[u]? = s.calls[u]? :=
  List.getElem?_set_ne h

/-- The histories with one more message dispatched. -/
def Process.noted (k : κ) (msg : Message) (s : Process κ) : Process κ :=
  {s with
    received := s.received ++ [(k,msg)]
    lookups := s.lookups ++ [(k,msg,bound s.callmap msg.getHash)]}

def Process.deliver (k : κ) (msg : Message) (s : Process κ) (d : Dispatched κ) : Process κ :=
  {s.noted k msg with
    channel := d.channel
    writes := s.writes ++ d.writes
    ran := s.ran ++ d.ran}

def step (H : Bytes → ℕ) (o : ByteOrder) (s : Process κ) : Event κ → Option (Process κ)
  | .reghandler name handler => some {s with callmap := reghandler H name handler s.callmap}
  | .setConnection conn => some {s with channel := {s.channel with conn := conn}}
  | .call name req res =>
      some {s with calls := s.calls ++ [{name := name, req := req, res := res}]}
  | .run t => s.calls[t]?.bind fun c => (s.channel.call H o t c).toOption.map (s.apply t)
  | .expire t => s.calls[t]?.bind fun c =>
      if c.pc = .wait then some (s.apply t (s.channel.expire t c)) else none
  | .receive k msg => (dispatch o s.callmap (some k) msg s.channel).toOption.map (s.deliver k msg)

/-- Nothing registered, called or received yet. -/
def init (conn : Option κ) : Process κ := {channel := {conn := conn}}

theorem toOption_eq_some {ε α : Type*} {x : Except ε α} {a : α} :
    x.toOption = some a ↔ x = .ok a := by
  cases x with
  | error e => simp [Except.toOption]
  | ok b => simp [Except.toOption]

variable {H : Bytes → ℕ} {o : ByteOrder} {s s' : Process κ} {t : ℕ} {k : κ} {msg : Message}

theorem step_run : step H o s (.run t) = some s' ↔
    ∃ c e, s.calls[t]? = some c ∧ s.channel.call H o t c = .ok e ∧ s' = s.apply t e := by
  simp only [step,Option.bind_eq_some_iff,Option.map_eq_some_iff,toOption_eq_some,
    exists_and_left,eq_comm (a := s')]

theorem step_expire : step H o s (.expire t) = some s' ↔
    ∃ c, s.calls[t]? = some c ∧ c.pc = .wait ∧ s' = s.apply t (s.channel.expire t c) := by
  simp only [step,Option.bind_eq_some_iff,Option.ite_none_right_eq_some,Option.some.injEq,
    eq_comm (a := s')]

theorem step_receive : step H o s (.receive k msg) = some s' ↔
    ∃ d, dispatch o s.callmap (some k) msg s.channel = .ok d ∧ s' = s.deliver k msg d := by
  simp only [step,Option.map_eq_some_iff,toOption_eq_some,eq_comm (a := s')]

/-- The fields that calls, promises and responses depend on. -/
inductive Change (s : Process κ) (s' : Process κ) : Event κ → Prop
  | other (e : Event κ) (channel : s'.channel = s.channel) (calls : s'.calls = s.calls) :
      Change s s' e
  | connect (conn : Option κ) (channel : s'.channel = {s.channel with conn := conn})
      (calls : s'.calls = s.calls) : Change s s' (.setConnection conn)
  | enter (name req res : Bytes) (channel : s'.channel = s.channel)
      (calls : s'.calls = s.calls ++ [{name := name, req := req, res := res}]) :
      Change s s' (.call name req res)
  | statement (e : Event κ) (t : ℕ) (c c' : Invocation)
      (event : e = .run t ∨ e = .expire t ∧ c.pc = .wait) (mem : s.calls[t]? = some c)
      (done : Statement t s.channel c s'.channel c') (calls : s'.calls = s.calls.set t c') :
      Change s s' e
  | response (k : κ) (msg : Message) (prom : ℕ) (value : Bytes) (type : HasType msg .response)
      (find : s.channel.prommap.find msg.header.id = some prom)
      (data : msg.dataString = some value) (pending : s.channel.prommap.states prom = .pending)
      (channel : s'.channel = {s.channel with prommap := s.channel.prommap.fulfil prom value})
      (calls : s'.calls = s.calls) : Change s s' (.receive k msg)

theorem step_change {e : Event κ} (h : step H o s e = some s') : Change s s' e := by
  cases e with
  | reghandler name handler =>
      cases h
      exact .other _ rfl rfl
  | setConnection conn =>
      cases h
      exact .connect conn rfl rfl
  | call name req res =>
      cases h
      exact .enter name req res rfl rfl
  | run t =>
      obtain ⟨c,e,hc,he,rfl⟩ := step_run.mp h
      exact .statement _ t c e.call (Or.inl rfl) hc (call_statement he) rfl
  | expire t =>
      obtain ⟨c,hc,hpc,rfl⟩ := step_expire.mp h
      exact .statement _ t c _ (Or.inr ⟨rfl,hpc⟩) hc (expire_statement hpc) rfl
  | receive k msg =>
      obtain ⟨d,hd,rfl⟩ := step_receive.mp h
      by_cases hm : HasType msg .response
      · rcases setResponse_cases (dispatch_response hm hd).1 with
          ⟨_,hch⟩ | ⟨prom,value,hfind,hdata,hpending,hch⟩
        · exact .other _ hch rfl
        · exact .response k msg prom value hm hfind hdata hpending hch rfl
      · exact .other _ (dispatch_other hm hd) rfl

/-- What an event registers. -/
def registration : Event κ → Option (Bytes × Handler)
  | .reghandler name handler => some (name,handler)
  | _ => none

/-- The handlers of a process are those of its `reghandler` calls, in order. -/
theorem run_callmap {es : List (Event κ)} (h : exec (step H o) s es = some s') :
    s'.callmap = registered H (es.filterMap registration) s.callmap := by
  induction es generalizing s with
  | nil =>
      cases h
      rfl
  | cons e es ih =>
      obtain ⟨u,hu,hrun⟩ := (exec_cons_eq_some _).mp h
      rw [ih hrun]
      cases e with
      | reghandler name handler =>
          cases hu
          rfl
      | setConnection conn | call name req res =>
          cases hu
          rfl
      | run t =>
          obtain ⟨c,e,_,_,rfl⟩ := step_run.mp hu
          rfl
      | expire t =>
          obtain ⟨c,_,_,rfl⟩ := step_expire.mp hu
          rfl
      | receive k msg =>
          obtain ⟨d,_,rfl⟩ := step_receive.mp hu
          rfl

/-- From the start on, a name is bound to the handler its registrations route it
to. -/
theorem run_bound {conn : Option κ} {es : List (Event κ)}
    (h : exec (step H o) (init conn) es = some s) (name : Bytes) :
    bound s.callmap (hashKey H name) =
      (route (hashKey H) (es.filterMap registration) name).join := by
  rw [run_callmap h]
  exact bound_registered _ name

/-- What an event adds to the history of messages. -/
def frame : Event κ → Option (κ × Message)
  | .receive k msg => some (k,msg)
  | _ => none

theorem step_received {e : Event κ} (h : step H o s e = some s') :
    s'.received = s.received ++ (frame e).toList := by
  cases e with
  | reghandler name handler | setConnection conn | call name req res =>
      cases h
      simp [frame]
  | run t =>
      obtain ⟨c,e,_,_,rfl⟩ := step_run.mp h
      simp [frame,Process.apply]
  | expire t =>
      obtain ⟨c,_,_,rfl⟩ := step_expire.mp h
      simp [frame,Process.apply]
  | receive k msg =>
      obtain ⟨d,_,rfl⟩ := step_receive.mp h
      rfl

/-- What an event adds to the lookups. -/
def looking (s : Process κ) (e : Event κ) : List (κ × Message × Option (Bytes → Bytes)) :=
  (frame e).toList.map fun r => (r.1,r.2,bound s.callmap r.2.getHash)

theorem step_lookups {e : Event κ} (h : step H o s e = some s') :
    s'.lookups = s.lookups ++ looking s e := by
  cases e with
  | reghandler name handler | setConnection conn | call name req res =>
      cases h
      simp [looking,frame]
  | run t =>
      obtain ⟨c,e,_,_,rfl⟩ := step_run.mp h
      simp [looking,frame,Process.apply]
  | expire t =>
      obtain ⟨c,_,_,rfl⟩ := step_expire.mp h
      simp [looking,frame,Process.apply]
  | receive k msg =>
      obtain ⟨d,_,rfl⟩ := step_receive.mp h
      rfl

/-- Of every message dispatched in a run it is known what was bound to its hash. -/
theorem run_lookups {conn : Option κ} {es : List (Event κ)}
    (h : exec (step H o) (init conn) es = some s) :
    s.lookups = collect (step H o) looking (init conn) es ∧
      s.received = s.lookups.map fun r => (r.1,r.2.1) := by
  constructor
  · exact exec_collect (step H o) (fun _ _ _ hs => step_lookups hs) h
  · apply exec_preserves (step H o)
      (P := fun s => s.received = s.lookups.map fun r => (r.1,r.2.1)) ?_ rfl h
    intro s e t hs hstep
    rw [step_received hstep,step_lookups hstep,hs,List.map_append,looking,List.map_map]
    exact congrArg _ (List.map_id _).symm

theorem run_received {es : List (Event κ)} (h : exec (step H o) s es = some s') :
    s'.received = s.received ++ es.filterMap frame := by
  induction es generalizing s with
  | nil =>
      cases h
      simp
  | cons e es ih =>
      obtain ⟨u,hu,hrun⟩ := (exec_cons_eq_some _).mp h
      rw [ih hrun,step_received hu,List.append_assoc]
      cases hf : frame e <;> simp [hf]

end Step
end SindiaRpc.RpcProcess
