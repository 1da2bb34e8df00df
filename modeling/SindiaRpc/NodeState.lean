import SindiaRpc.ClientState
import SindiaRpc.ConnectionHistories
import SindiaRpc.ProcessWrites

/-!
# A process with its connections

A node is one process of the program: its singletons and all the connections
its client or its server has made. What the process passes to `Write` goes to the
named connection in the same step, and the read loop of a connection gives each
message it completes to `dispatch`, whose answer is written before the next read
starts. Everything else that happens on a connection happens beside that.

Connections are named by their order and are not released here: one that nothing
refers to any more is one that takes no further steps. `HandleConnection` starts
the connection of a client and greets the server at once.
-/
namespace SindiaRpc.NodeState
open MessageFrames DispatcherTable ConnectionState RpcProcess ConnectionHistories ClientState
  ProcessWrites GuardedRuns

structure Node where
  process : Process ℕ := init none
  conns : List Connection := []

inductive Event where
  /-- A step of the process other than a dispatch. -/
  | thread (e : RpcProcess.Event ℕ)
  /-- The server accepts and starts a connection. -/
  | accept (addr : String)
  /-- The client's `HandleConnection` finds its connection established. -/
  | connect (addr : String)
  /-- Connection `k` takes a step that neither reads a message nor writes one. -/
  | io (k : ℕ) (e : ConnectionState.Event)
  /-- The handler of read `i` of connection `k` runs. -/
  | runRead (k i : ℕ)

/-- What other threads do; a connection they set exists. -/
def Local (n : Node) : RpcProcess.Event ℕ → Prop
  | .receive _ _ => False
  | .setConnection (some k) => k < n.conns.length
  | .setConnection none | .reghandler _ _ | .call _ _ _ | .run _ | .expire _ => True

instance (n : Node) : ∀ e, Decidable (Local n e)
  | .receive _ _ => inferInstanceAs (Decidable False)
  | .setConnection (some _) => inferInstanceAs (Decidable (_ < _))
  | .setConnection none | .reghandler _ _ | .call _ _ _ | .run _ | .expire _ =>
      inferInstanceAs (Decidable True)

def Transport : ConnectionState.Event → Prop
  | .runRead _ _ | .callWrite _ => False
  | _ => True

instance : ∀ e, Decidable (Transport e)
  | .runRead _ _ | .callWrite _ => inferInstanceAs (Decidable False)
  | .receive _ | .readReady _ | .readFail _ _ | .sendChunk _ _ | .writeReady _ | .writeFail _ _
  | .runWrite _ | .callStop => inferInstanceAs (Decidable True)

/-- What the process has passed to `Write` in a step. -/
def posted (p p' : Process ℕ) : List (ℕ × Message) := p'.writes.drop p.writes.length

def post (abi : Abi) : List (ℕ × Message) → List Connection → Option (List Connection)
  | [], conns => some conns
  | (k,msg) :: ws, conns => do
      let c ← conns[k]?
      let c' ← c.write abi msg
      post abi ws (conns.set k c')

/-- A client's connection, started and greeted on. -/
def greeted (H : Bytes → ℕ) (abi : Abi) (addr : String) : Option Connection := do
  let msg ← hello H abi.order
  (started .empty true addr).write abi msg

def step (H : Bytes → ℕ) (abi : Abi) (n : Node) : Event → Option Node
  | .thread e => do
      if Local n e then
        let p ← RpcProcess.step H abi.order n.process e
        let conns ← post abi (posted n.process p) n.conns
        some ⟨p,conns⟩
      else none
  | .accept addr => some {n with conns := n.conns ++ [started .empty true addr]}
  | .connect addr => do
      let c ← greeted H abi addr
      some {n with conns := n.conns ++ [c]}
  | .io k e => do
      if Transport e then
        let c ← n.conns[k]?
        let c' ← ConnectionState.step abi c e
        some {n with conns := n.conns.set k c'}
      else none
  | .runRead k i => do
      let c ← n.conns[k]?
      match incoming c i with
      | none =>
          let c' ← ConnectionState.step abi c (.runRead i none)
          some {n with conns := n.conns.set k c'}
      | some msg =>
          let p ← RpcProcess.step H abi.order n.process (.receive k msg)
          let reply := (posted n.process p).head?.map Prod.snd
          let c' ← ConnectionState.step abi c (.runRead i reply)
          some ⟨p,n.conns.set k c'⟩

/-- Nothing has happened yet. -/
def Node.empty : Node := {}

/-- `HandleConnection` on the connection that has been established. -/
theorem handleConnection_greets {abi : Abi} {H : Bytes → ℕ} {s : Client} {k port : ℕ} {ip : String}
    (hk : s.connection = some k) (hc : s.conns[k]? = some (connected .empty true)) :
    Client.handleConnection abi H 0 (some ip) (some port) s =
      (greeted H abi (ip ++ ":" ++ toString port)).map fun c => {s with
        isconnected := true
        conns := s.conns.set k c
        greeted := s.greeted ++ [k]} := by
  have hopen : (connected .empty true).isOpen = true := rfl
  simp only [Client.handleConnection,hk,hc,hopen,start_connected,greeted,Option.bind_eq_bind,
    Option.bind_some,Bool.not_true,Bool.false_eq_true,if_false,if_true,Option.map_bind]
  simp only [Option.map_eq_bind,Function.comp_def]

/-! ### What one step does -/

/-- A step moves the process alone, opens a connection, or moves one connection
and with it the histories of the process. -/
inductive Change (H : Bytes → ℕ) (abi : Abi) (n n' : Node) (e : Event) : Prop
  | process (pe : RpcProcess.Event ℕ) (event : e = .thread pe)
      (steps : RpcProcess.step H abi.order n.process pe = some n'.process)
      (received : n'.process.received = n.process.received)
      (writes : n'.process.writes = n.process.writes) (conns : n'.conns = n.conns) :
      Change H abi n n' e
  | opened (addr : String) (c : Connection)
      (fresh : e = .accept addr ∧ c = started .empty true addr ∨
        e = .connect addr ∧ greeted H abi addr = some c)
      (process : n'.process = n.process) (conns : n'.conns = n.conns ++ [c]) : Change H abi n n' e
  | moved (k : ℕ) (c c' : Connection) (ce : ConnectionState.Event) (mem : n.conns[k]? = some c)
      (event : e = .io k ce ∨ ¬ Transport ce) (moves : ConnectionState.step abi c ce = some c')
      (process : n'.process = n.process ∨ ∃ pe, (e = .thread pe ∨ ∃ msg, pe = .receive k msg) ∧
        RpcProcess.step H abi.order n.process pe = some n'.process)
      (received : n'.process.received =
        n.process.received ++ (dispatching c ce).toList.map fun m => (k,m))
      (writes : n'.process.writes = n.process.writes ++ (writing c ce).toList.map fun m => (k,m))
      (conns : n'.conns = n.conns.set k c') : Change H abi n n' e

section Inversion
variable {H : Bytes → ℕ} {abi : Abi} {n n' : Node} {e : Event} {p p' : Process ℕ} {o : ByteOrder}
  {pe : RpcProcess.Event ℕ} {k i : ℕ} {c : Connection} {ce : ConnectionState.Event}

theorem posted_of_append {ws : List (ℕ × Message)} (h : p'.writes = p.writes ++ ws) :
    posted p p' = ws := by
  rw [posted,h,List.drop_left]

/-- A thread writes one message or none. -/
theorem thread_writes (hpe : ∀ k msg, pe ≠ .receive k msg)
    (hs : RpcProcess.step H o p pe = some p') : p'.received = p.received ∧
      (p'.writes = p.writes ∨ ∃ w, p'.writes = p.writes ++ [w]) := by
  have hreceived : p'.received = p.received := by
    rw [step_received hs]
    cases pe with
    | receive k msg => exact absurd rfl (hpe k msg)
    | reghandler _ _ | setConnection _ | call _ _ _ | run _ | expire _ => exact List.append_nil _
  refine ⟨hreceived,?_⟩
  cases step_traffic hs with
  | quiet writes received lookups ran kept => exact Or.inl writes
  | request t c k mem pc => exact Or.inr ⟨_,rfl⟩
  | arrival k msg d done => exact absurd hreceived (by simp [Process.deliver,Process.noted])

/-- A dispatch writes to the connection it came from. -/
theorem receive_writes {msg : Message} (hs : RpcProcess.step H o p (.receive k msg) = some p') :
    p'.received = p.received ++ [(k,msg)] ∧
      ∃ reply : Option Message, p'.writes = p.writes ++ reply.toList.map fun m => (k,m) := by
  obtain ⟨d,hd,rfl⟩ := step_receive.mp hs
  refine ⟨rfl,?_⟩
  rcases dispatch_writes hd with ⟨_,hnil⟩ | ⟨_,_,reply,_,_,rfl⟩
  · exact ⟨none,by rw [Process.deliver,hnil]; rfl⟩
  · exact ⟨some reply,rfl⟩

theorem step_thread : step H abi n (.thread pe) = some n' ↔ Local n pe ∧ ∃ p conns,
    RpcProcess.step H abi.order n.process pe = some p ∧
    post abi (posted n.process p) n.conns = some conns ∧ n' = ⟨p,conns⟩ := by
  simp only [step,Option.ite_none_right_eq_some,Option.bind_eq_bind,Option.bind_eq_some_iff,
    Option.some.injEq,exists_and_left,eq_comm (b := n')]

theorem step_io : step H abi n (.io k ce) = some n' ↔ Transport ce ∧ ∃ c c',
    n.conns[k]? = some c ∧ ConnectionState.step abi c ce = some c' ∧
    n' = {n with conns := n.conns.set k c'} := by
  simp only [step,Option.ite_none_right_eq_some,Option.bind_eq_bind,Option.bind_eq_some_iff,
    Option.some.injEq,exists_and_left,eq_comm (b := n')]

/-- The handler of a read that dispatches nothing. -/
theorem step_runRead_unread (hc : n.conns[k]? = some c) (hin : incoming c i = none) :
    step H abi n (.runRead k i) = some n' ↔ ∃ c',
      ConnectionState.step abi c (.runRead i none) = some c' ∧
      n' = {n with conns := n.conns.set k c'} := by
  simp only [step,hc,Option.bind_eq_bind,Option.bind_some,hin,Option.bind_eq_some_iff,
    Option.some.injEq,eq_comm (b := n')]

/-- The handler of a read that dispatches a message. -/
theorem step_runRead_dispatch {msg : Message} (hc : n.conns[k]? = some c)
    (hin : incoming c i = some msg) : step H abi n (.runRead k i) = some n' ↔ ∃ p c',
      RpcProcess.step H abi.order n.process (.receive k msg) = some p ∧
      ConnectionState.step abi c
        (.runRead i ((posted n.process p).head?.map Prod.snd)) = some c' ∧
      n' = ⟨p,n.conns.set k c'⟩ := by
  simp only [step,hc,Option.bind_eq_bind,Option.bind_some,hin,Option.bind_eq_some_iff,
    Option.some.injEq,exists_and_left,eq_comm (b := n')]

theorem quiet_of_transport (h : Transport ce) (c : Connection) :
    dispatching c ce = none ∧ writing c ce = none := by
  cases ce with
  | runRead i reply | callWrite msg => exact h.elim
  | receive _ | readReady _ | readFail _ _ | sendChunk _ _ | writeReady _ | writeFail _ _
  | runWrite _ | callStop => exact ⟨rfl,rfl⟩

theorem step_change (hs : step H abi n e = some n') : Change H abi n n' e := by
  cases e with
  | thread pe =>
      obtain ⟨hlocal,p,conns,hp,hpost,rfl⟩ := step_thread.mp hs
      have hpe : ∀ k msg, pe ≠ .receive k msg := by
        intro k msg heq
        rw [heq] at hlocal
        exact hlocal
      obtain ⟨hreceived,hwrites⟩ := thread_writes hpe hp
      rcases hwrites with hnil | ⟨w,hone⟩
      · rw [posted_of_append (hnil.trans (List.append_nil _).symm)] at hpost
        exact .process pe rfl hp hreceived hnil (Option.some.inj hpost).symm
      · rw [posted_of_append hone] at hpost
        simp only [post,Option.bind_eq_bind,Option.bind_eq_some_iff,Option.some.injEq] at hpost
        obtain ⟨c,hc,c',hwrite,rfl⟩ := hpost
        refine .moved w.1 c c' (.callWrite w.2) hc (Or.inr id) hwrite
          (Or.inr ⟨pe,Or.inl rfl,hp⟩) ?_ hone rfl
        exact hreceived.trans (List.append_nil _).symm
  | accept addr =>
      cases hs
      exact .opened addr _ (Or.inl ⟨rfl,rfl⟩) rfl rfl
  | connect addr =>
      simp only [step,Option.bind_eq_bind,Option.bind_eq_some_iff,Option.some.injEq] at hs
      obtain ⟨c,hc,rfl⟩ := hs
      exact .opened addr c (Or.inr ⟨rfl,hc⟩) rfl rfl
  | io k ce =>
      obtain ⟨htransport,c,c',hc,hstep,rfl⟩ := step_io.mp hs
      obtain ⟨hdispatching,hwriting⟩ := quiet_of_transport htransport c
      refine .moved k c c' ce hc (Or.inl rfl) hstep (Or.inl rfl) ?_ ?_ rfl
      · rw [hdispatching]
        exact (List.append_nil _).symm
      · rw [hwriting]
        exact (List.append_nil _).symm
  | runRead k i =>
      have hex : ∃ c, n.conns[k]? = some c := by
        cases hc : n.conns[k]? with
        | none => simp [step,hc] at hs
        | some c => exact ⟨c,rfl⟩
      obtain ⟨c,hc⟩ := hex
      cases hin : incoming c i with
      | none =>
          obtain ⟨c',hstep,rfl⟩ := (step_runRead_unread hc hin).mp hs
          refine .moved k c c' (.runRead i none) hc (Or.inr id) hstep (Or.inl rfl) ?_ ?_ rfl
          · rw [dispatching,hin]
            exact (List.append_nil _).symm
          · rw [writing,hin]
            exact (List.append_nil _).symm
      | some msg =>
          obtain ⟨p,c',hp,hstep,rfl⟩ := (step_runRead_dispatch hc hin).mp hs
          obtain ⟨hreceived,reply,hwrites⟩ := receive_writes hp
          have hreply : (posted n.process p).head?.map Prod.snd = reply := by
            rw [posted_of_append hwrites]
            cases reply <;> rfl
          rw [hreply] at hstep
          refine .moved k c c' (.runRead i reply) hc (Or.inr id) hstep
            (Or.inr ⟨_,Or.inr ⟨msg,rfl⟩,hp⟩) ?_ ?_ rfl
          · rw [dispatching,hin]
            exact hreceived
          · rw [writing,hin]
            exact hwrites

/-- What a step of the node is for connection `j`: none of its own, its opening or
one of its steps. -/
theorem step_conn (hs : step H abi n e = some n') (j : ℕ) : n'.conns[j]? = n.conns[j]? ∨
    (∃ addr c, (c = started .empty true addr ∨ greeted H abi addr = some c) ∧
      n.conns[j]? = none ∧ n'.conns[j]? = some c) ∨
    ∃ c c' ce, (e = .io j ce ∨ ¬ Transport ce) ∧ ConnectionState.step abi c ce = some c' ∧
      n.conns[j]? = some c ∧ n'.conns[j]? = some c' := by
  cases step_change hs with
  | process pe event steps received writes conns => exact Or.inl (by rw [conns])
  | opened addr c fresh process conns =>
      rcases Nat.lt_trichotomy j n.conns.length with hj | rfl | hj
      · exact Or.inl (by rw [conns,List.getElem?_append_left hj])
      · refine Or.inr (Or.inl ⟨addr,c,fresh.imp And.right And.right,?_,?_⟩)
        · exact List.getElem?_eq_none le_rfl
        · rw [conns,List.getElem?_concat_length]
      · left
        rw [conns,List.getElem?_eq_none hj.le,List.getElem?_eq_none]
        rw [List.length_append,List.length_singleton]
        omega
  | moved k c c' ce mem event moves process received writes conns =>
      by_cases hk : k = j
      · subst hk
        refine Or.inr (Or.inr ⟨c,c',ce,event,moves,mem,?_⟩)
        rw [conns,List.getElem?_set_self (List.getElem?_eq_some_iff.mp mem).choose]
      · exact Or.inl (by rw [conns,List.getElem?_set_ne hk])

end Inversion
end SindiaRpc.NodeState
