import SindiaRpc.NodeState
import SindiaRpc.ListUpdates

/-!
# A process and what makes its connections

The connections of a process are made and dropped by its `TcpServer` or its
`TcpClient`, which is its front. A front names its connections in the order of
their creation. A connection takes steps once its `Start` has returned, and while
the front, one of its reads or `Rpcchannel::m_conn` refers to it; what arrives
earlier waits in the socket.

For the peers a host is a node: releasing connections, giving up on them and
keeping tables of them changes when a connection takes steps and not what it
reads, dispatches or writes.
-/
namespace SindiaRpc.Hosts
open MessageFrames DispatcherTable RpcProcess ConnectionState ConnectionHistories ProcessWrites
  NodeState GuardedRuns ListUpdates

structure Front (σ ε : Type) where
  conns : σ → List Connection
  /-- `Start` has returned. -/
  started : σ → ℕ → Bool
  /-- The front or a read refers to the connection. -/
  held : σ → ℕ → Bool
  /-- No exception has left a handler. -/
  alive : σ → Bool
  /-- Handlers are run. -/
  running : σ → Bool
  replace : σ → List Connection → σ
  /-- The close callback. -/
  closeConn : ℕ → σ → σ
  registers : ε → Option (Bytes × Handler)
  step : (Bytes → ℕ) → Abi → σ → ε → Option σ

structure Host (σ : Type) where
  process : Process ℕ := init none
  front : σ

inductive Event (ε : Type) where
  /-- A step of the front. -/
  | own (e : ε)
  /-- A step of the process other than a dispatch. -/
  | thread (e : RpcProcess.Event ℕ)
  /-- Connection `c` takes a step that neither reads a message nor writes one. -/
  | io (c : ℕ) (e : ConnectionState.Event)
  /-- The handler of read `i` of connection `c` runs. -/
  | runRead (c i : ℕ)

section Step
variable {σ ε : Type} (F : Front σ ε)

def Holds (s : Host σ) (c : ℕ) : Prop :=
  F.started s.front c = true ∧ (F.held s.front c = true ∨ s.process.channel.conn = some c)

instance (s : Host σ) (c : ℕ) : Decidable (Holds F s c) := inferInstanceAs (Decidable (_ ∧ _))

/-- What other threads do; a connection they set is one that still lives. -/
def Lives (s : Host σ) : RpcProcess.Event ℕ → Prop
  | .receive _ _ => False
  | .setConnection (some c) => Holds F s c
  | .setConnection none | .reghandler _ _ | .call _ _ _ | .run _ | .expire _ => True

instance (s : Host σ) : ∀ e, Decidable (Lives F s e)
  | .receive _ _ => inferInstanceAs (Decidable False)
  | .setConnection (some _) => inferInstanceAs (Decidable (Holds _ _ _))
  | .setConnection none | .reghandler _ _ | .call _ _ _ | .run _ | .expire _ =>
      inferInstanceAs (Decidable True)

def register (H : Bytes → ℕ) (o : ByteOrder) (p : Process ℕ) :
    Option (Bytes × Handler) → Option (Process ℕ)
  | none => some p
  | some (name,handler) => RpcProcess.step H o p (.reghandler name handler)

/-- One step of connection `c`, with its close callback. -/
def advance (abi : Abi) (c : ℕ) (e : ConnectionState.Event) (u : σ) : Option σ := do
  let conn ← (F.conns u)[c]?
  let conn' ← ConnectionState.step abi conn e
  let v := F.replace u ((F.conns u).set c conn')
  some (if conn.closecbCalls < conn'.closecbCalls then F.closeConn c v else v)

def step (H : Bytes → ℕ) (abi : Abi) (s : Host σ) : Event ε → Option (Host σ)
  | .own e => do
      if F.alive s.front then
        let p ← register H abi.order s.process (F.registers e)
        let u ← F.step H abi s.front e
        some ⟨p,u⟩
      else none
  | .thread e => do
      if F.alive s.front ∧ Lives F s e then
        let p ← RpcProcess.step H abi.order s.process e
        let conns ← post abi (posted s.process p) (F.conns s.front)
        some ⟨p,F.replace s.front conns⟩
      else none
  | .io c e => do
      if F.running s.front ∧ Transport e ∧ Holds F s c then
        let u ← advance F abi c e s.front
        some {s with front := u}
      else none
  | .runRead c i => do
      if F.running s.front ∧ Holds F s c then
        let conn ← (F.conns s.front)[c]?
        match incoming conn i with
        | none =>
            let u ← advance F abi c (.runRead i none) s.front
            some {s with front := u}
        | some msg =>
            let p ← RpcProcess.step H abi.order s.process (.receive c msg)
            let reply := (posted s.process p).head?.map Prod.snd
            let u ← advance F abi c (.runRead i reply) s.front
            some ⟨p,u⟩
      else none

end Step

section Inversion
variable {σ ε : Type} {F : Front σ ε} {H : Bytes → ℕ} {abi : Abi} {s t : Host σ} {c i : ℕ}

theorem own_eq_some {e : ε} : step F H abi s (.own e) = some t ↔ F.alive s.front = true ∧
    ∃ p v, register H abi.order s.process (F.registers e) = some p ∧
      F.step H abi s.front e = some v ∧ t = ⟨p,v⟩ := by
  simp only [step,Option.ite_none_right_eq_some,Option.bind_eq_bind,Option.bind_eq_some_iff,
    Option.some.injEq,exists_and_left,eq_comm (b := t)]

theorem thread_eq_some {e : RpcProcess.Event ℕ} : step F H abi s (.thread e) = some t ↔
    (F.alive s.front = true ∧ Lives F s e) ∧
    ∃ p conns, RpcProcess.step H abi.order s.process e = some p ∧
      post abi (posted s.process p) (F.conns s.front) = some conns ∧
      t = ⟨p,F.replace s.front conns⟩ := by
  simp only [step,Option.ite_none_right_eq_some,Option.bind_eq_bind,Option.bind_eq_some_iff,
    Option.some.injEq,exists_and_left,eq_comm (b := t)]

theorem io_eq_some {e : ConnectionState.Event} : step F H abi s (.io c e) = some t ↔
    (F.running s.front = true ∧ Transport e ∧ Holds F s c) ∧
    ∃ v, advance F abi c e s.front = some v ∧ t = {s with front := v} := by
  simp only [step,Option.ite_none_right_eq_some,Option.bind_eq_bind,Option.bind_eq_some_iff,
    Option.some.injEq,eq_comm (b := t)]

theorem runRead_unread {conn : Connection} (hconn : (F.conns s.front)[c]? = some conn)
    (hin : incoming conn i = none) : step F H abi s (.runRead c i) = some t ↔
    (F.running s.front = true ∧ Holds F s c) ∧
      ∃ v, advance F abi c (.runRead i none) s.front = some v ∧ t = {s with front := v} := by
  simp only [step,Option.ite_none_right_eq_some,Option.bind_eq_bind,hconn,Option.bind_some,hin,
    Option.bind_eq_some_iff,Option.some.injEq,eq_comm (b := t)]

theorem runRead_read {conn : Connection} {msg : Message}
    (hconn : (F.conns s.front)[c]? = some conn) (hin : incoming conn i = some msg) :
    step F H abi s (.runRead c i) = some t ↔ (F.running s.front = true ∧ Holds F s c) ∧
      ∃ p v, RpcProcess.step H abi.order s.process (.receive c msg) = some p ∧
        advance F abi c (.runRead i ((posted s.process p).head?.map Prod.snd)) s.front = some v ∧
        t = ⟨p,v⟩ := by
  simp only [step,Option.ite_none_right_eq_some,Option.bind_eq_bind,hconn,Option.bind_some,hin,
    Option.bind_eq_some_iff,Option.some.injEq,exists_and_left,eq_comm (b := t)]

/-- The handler of a read has a message to dispatch or none. -/
theorem runRead_cases (hs : step F H abi s (.runRead c i) = some t) :
    (F.running s.front = true ∧ Holds F s c) ∧ ∃ conn, (F.conns s.front)[c]? = some conn ∧
      ((incoming conn i = none ∧ ∃ v, advance F abi c (.runRead i none) s.front = some v ∧
          t = {s with front := v}) ∨
        ∃ msg p v, incoming conn i = some msg ∧
          RpcProcess.step H abi.order s.process (.receive c msg) = some p ∧
          advance F abi c (.runRead i ((posted s.process p).head?.map Prod.snd)) s.front =
            some v ∧ t = ⟨p,v⟩) := by
  cases hconn : (F.conns s.front)[c]? with
  | none => simp [step,hconn] at hs
  | some conn =>
      cases hin : incoming conn i with
      | none =>
          obtain ⟨hheld,v,hv,ht⟩ := (runRead_unread hconn hin).mp hs
          exact ⟨hheld,conn,rfl,Or.inl ⟨hin,v,hv,ht⟩⟩
      | some msg =>
          obtain ⟨hheld,p,v,hp,hv,ht⟩ := (runRead_read hconn hin).mp hs
          exact ⟨hheld,conn,rfl,Or.inr ⟨msg,p,v,hin,hp,hv,ht⟩⟩

/-- What a step of the host is for its process. -/
inductive Drives (F : Front σ ε) (s : Host σ) : Event ε → RpcProcess.Event ℕ → Prop
  | own (e : ε) (name : Bytes) (handler : Handler) (registers : F.registers e = some (name,handler)) :
      Drives F s (.own e) (.reghandler name handler)
  | thread (e : RpcProcess.Event ℕ) (lives : Lives F s e) : Drives F s (.thread e) e
  | runRead (c i : ℕ) (msg : Message) (running : F.running s.front = true) (holds : Holds F s c) :
      Drives F s (.runRead c i) (.receive c msg)

/-- The process takes a step or none. -/
theorem process_step {e : Event ε} (hs : step F H abi s e = some t) : t.process = s.process ∨
    ∃ pe, Drives F s e pe ∧ RpcProcess.step H abi.order s.process pe = some t.process := by
  cases e with
  | own e =>
      obtain ⟨_,p,v,hp,_,rfl⟩ := own_eq_some.mp hs
      cases hreg : F.registers e with
      | none =>
          rw [hreg] at hp
          exact Or.inl (Option.some.inj hp).symm
      | some r =>
          rw [hreg] at hp
          exact Or.inr ⟨_,.own e r.1 r.2 hreg,hp⟩
  | thread pe =>
      obtain ⟨⟨_,hlives⟩,p,conns,hp,_,rfl⟩ := thread_eq_some.mp hs
      exact Or.inr ⟨pe,.thread pe hlives,hp⟩
  | io c e =>
      obtain ⟨_,v,_,rfl⟩ := io_eq_some.mp hs
      exact Or.inl rfl
  | runRead c i =>
      obtain ⟨⟨hrunning,hholds⟩,_,_,⟨_,v,_,rfl⟩ | ⟨msg,p,v,_,hp,_,rfl⟩⟩ := runRead_cases hs
      · exact Or.inl rfl
      · exact Or.inr ⟨_,.runRead c i msg hrunning hholds,hp⟩

end Inversion

/-! ### What a front may do -/

section Laws
variable {σ ε : Type} (F : Front σ ε) (H : Bytes → ℕ) (abi : Abi) (Inv : σ → ℕ → Prop)

/-- Nothing happens to the connections that have been started. -/
structure Kept (u v : σ) (k : ℕ) : Prop where
  inv : Inv v k
  started : ∀ c, F.started v c = F.started u c
  conns : ∀ c, F.started u c = true → (F.conns v)[c]? = (F.conns u)[c]?

/-- One connection becomes `conn`. -/
structure Moved (u v : σ) (k c : ℕ) (conn : Connection) : Prop where
  inv : Inv v k
  started : ∀ d, F.started v d = F.started u d
  conns : F.conns v = (F.conns u).set c conn

/-- What a step of the front is for a node that has `k` connections. -/
inductive Outcome (u v : σ) (k : ℕ) (e : ε) : Prop
  | kept (kept : Kept F Inv u v k)
  | skipped (silent : F.registers e = none) (kept : Kept F Inv u v (k + 1))
  | opened (silent : F.registers e = none) (addr : String) (conn : Connection)
      (fresh : conn = started .empty true addr ∨ greeted H abi addr = some conn)
      (inv : Inv v (k + 1)) (mem : (F.conns v)[k]? = some conn)
      (started : ∀ c, F.started v c = true ↔ F.started u c = true ∨ c = k)
      (conns : ∀ c, F.started u c = true → (F.conns v)[c]? = (F.conns u)[c]?)
  | stopped (silent : F.registers e = none) (c : ℕ) (conn : Connection)
      (active : F.started u c = true) (mem : (F.conns u)[c]? = some conn)
      (moved : Moved F Inv u v k c conn.close)

/-- A front whose settled steps keep `Inv`. -/
structure Lawful (Settled : σ → σ → Prop) : Prop where
  own : ∀ (u v : σ) (k : ℕ) (e : ε), F.alive u = true → Inv u k → Settled u v →
    F.step H abi u e = some v → Outcome F H abi Inv u v k e
  same : ∀ u, F.replace u (F.conns u) = u
  write : ∀ (u : σ) (k c : ℕ) (conn conn' : Connection) (msg : Message), Inv u k →
    F.started u c = true → (F.conns u)[c]? = some conn → conn.write abi msg = some conn' →
    Moved F Inv u (F.replace u ((F.conns u).set c conn')) k c conn'
  advance : ∀ (u v : σ) (k c : ℕ) (e : ConnectionState.Event), F.running u = true → Inv u k →
    F.started u c = true → Settled u v → advance F abi c e u = some v →
    ∃ conn conn', (F.conns u)[c]? = some conn ∧ ConnectionState.step abi conn e = some conn' ∧
      Moved F Inv u v k c conn'

end Laws

/-! ### The node that the peers see -/

section Simulation
variable {σ ε : Type} (F : Front σ ε) (Inv : σ → ℕ → Prop)

/-- A node with the process and with the connections that have been started; the
others have a place there and are never used. -/
structure Matches (s : Host σ) (n : Node) : Prop where
  process : n.process = s.process
  front : Inv s.front n.conns.length
  conns : ∀ c, F.started s.front c = true → ∃ conn : Connection,
    (F.conns s.front)[c]? = some conn ∧ n.conns[c]? = some conn
  idle : ∀ (c : ℕ) (conn : Connection), n.conns[c]? = some conn →
    F.started s.front c = false → conn = started .empty true ""
  channel : ∀ c, s.process.channel.conn = some c → F.started s.front c = true

/-- A step of the host is one step of the node or none, and starts no connection
that has a place in the node already. -/
inductive Simulated (H : Bytes → ℕ) (abi : Abi) (s : Host σ) (n : Node) (e : Event ε)
    (t : Host σ) : Prop
  | none (agree : Matches F Inv t n)
      (starts : ∀ c < n.conns.length, F.started t.front c = F.started s.front c)
  | one (e' : NodeState.Event) (n' : Node) (steps : NodeState.step H abi n e' = some n')
      (agree : Matches F Inv t n')
      (arrives : ∀ k bytes, e' = .io k (.receive bytes) → e = .io k (.receive bytes))
      (starts : ∀ c < n.conns.length, F.started t.front c = F.started s.front c)

variable {F Inv} {H : Bytes → ℕ} {abi : Abi} {Settled : σ → σ → Prop} {s t : Host σ} {n : Node}
  {u v : σ} {c k : ℕ} {conn conn' : Connection} {p p' : Process ℕ}

/-- A thread writes on the connection that is set. -/
theorem thread_target {o : ByteOrder} {pe : RpcProcess.Event ℕ} (hpe : ∀ k msg, pe ≠ .receive k msg)
    (hs : RpcProcess.step H o p pe = some p') : posted p p' = [] ∨
      ∃ k msg, p.channel.conn = some k ∧ posted p p' = [(k,msg)] := by
  have hquiet : p'.writes = p.writes → posted p p' = [] := by
    intro h
    exact posted_of_append (h.trans (List.append_nil _).symm)
  cases pe with
  | reghandler name handler | setConnection conn | call name req res =>
      cases hs
      exact Or.inl (hquiet rfl)
  | run t =>
      obtain ⟨c,x,hc,hx,rfl⟩ := step_run.mp hs
      rcases call_writes hx with hnil | ⟨k,hpc,rfl⟩
      · exact Or.inl (hquiet (by rw [Process.apply,hnil,List.append_nil]))
      · right
        refine ⟨k,c.msg,?_,posted_of_append rfl⟩
        simp only [RpcChannel.Rpcchannel.call,hpc] at hx
        cases hconn : p.channel.conn with
        | none => simp [hconn] at hx
        | some j =>
            rw [hconn] at hx
            cases hx
            rfl
  | expire t =>
      obtain ⟨c,_,_,rfl⟩ := step_expire.mp hs
      exact Or.inl (hquiet (by rw [Process.apply,expire_writes,List.append_nil]))
  | receive k msg => exact absurd rfl (hpe k msg)

/-- Only `SetConnection` sets `m_conn`. -/
theorem conn_step {o : ByteOrder} {pe : RpcProcess.Event ℕ}
    (hs : RpcProcess.step H o p pe = some p') :
    p'.channel.conn = p.channel.conn ∨ ∃ conn, pe = .setConnection conn ∧ p'.channel.conn = conn := by
  cases RpcProcess.step_change hs with
  | other e channel calls => exact Or.inl (by rw [channel])
  | connect conn channel calls => exact Or.inr ⟨conn,rfl,by rw [channel]⟩
  | enter name req res channel calls => exact Or.inl (by rw [channel])
  | statement e t c c' event mem done calls =>
      left
      generalize hch : p'.channel = ch at done
      cases done <;> rfl
  | response k msg prom value type find data pending channel calls => exact Or.inl (by rw [channel])

theorem Matches.started_lt (h : Matches F Inv s n) (hc : F.started s.front c = true) :
    c < n.conns.length := by
  obtain ⟨conn,_,hnode⟩ := h.conns c hc
  exact (List.getElem?_eq_some_iff.mp hnode).choose

theorem Matches.at_node (h : Matches F Inv s n) (hc : F.started s.front c = true)
    (hmem : (F.conns s.front)[c]? = some conn) : n.conns[c]? = some conn := by
  obtain ⟨conn₁,hconn,hnode⟩ := h.conns c hc
  rwa [Option.some.inj (hconn.symm.trans hmem)] at hnode

theorem Matches.kept (h : Matches F Inv s n) (hkept : Kept F Inv s.front v n.conns.length)
    (hchannel : ∀ c, p.channel.conn = some c → F.started s.front c = true) :
    Matches F Inv ⟨p,v⟩ ⟨p,n.conns⟩ := by
  refine ⟨rfl,hkept.inv,?_,?_,?_⟩
  · intro c hc
    rw [hkept.started] at hc
    rw [hkept.conns c hc]
    exact h.conns c hc
  · intro c conn hconn hc
    rw [hkept.started] at hc
    exact h.idle c conn hconn hc
  · intro c hc
    rw [hkept.started]
    exact hchannel c hc

theorem Matches.moved (h : Matches F Inv s n) (hactive : F.started s.front c = true)
    (hmoved : Moved F Inv s.front v n.conns.length c conn')
    (hchannel : ∀ c, p.channel.conn = some c → F.started s.front c = true) :
    Matches F Inv ⟨p,v⟩ ⟨p,n.conns.set c conn'⟩ := by
  refine ⟨rfl,?_,?_,?_,?_⟩
  · rw [List.length_set]
    exact hmoved.inv
  · intro d hd
    rw [hmoved.started] at hd
    rw [hmoved.conns]
    obtain ⟨conn,hconn,hnode⟩ := h.conns d hd
    by_cases hcd : c = d
    · subst hcd
      exact ⟨conn',getElem?_set_of_eq_some hconn,getElem?_set_of_eq_some hnode⟩
    · rw [List.getElem?_set_ne hcd,List.getElem?_set_ne hcd]
      exact ⟨conn,hconn,hnode⟩
  · intro d conn hconn hd
    rw [hmoved.started] at hd
    rcases getElem?_set_cases hconn with ⟨rfl,rfl⟩ | ⟨_,hconn⟩
    · rw [hactive] at hd
      cases hd
    · exact h.idle d conn hconn hd
  · intro d hd
    rw [hmoved.started]
    exact hchannel d hd

/-- A connection that is given up is opened and never used. -/
theorem Matches.skipped (h : Matches F Inv s n)
    (hkept : Kept F Inv s.front v (n.conns.length + 1)) :
    Matches F Inv {s with front := v} {n with conns := n.conns ++ [started .empty true ""]} := by
  refine ⟨h.process,?_,?_,?_,?_⟩
  · rw [List.length_append]
    exact hkept.inv
  · intro c hc
    rw [hkept.started] at hc
    rw [hkept.conns c hc]
    obtain ⟨conn,hconn,hnode⟩ := h.conns c hc
    exact ⟨conn,hconn,getElem?_concat_of_eq_some hnode⟩
  · intro c conn hconn hc
    rw [hkept.started] at hc
    rcases getElem?_concat_cases hconn with hconn | ⟨_,rfl⟩
    · exact h.idle c conn hconn hc
    · rfl
  · intro c hc
    rw [hkept.started]
    exact h.channel c hc

theorem Matches.opened (h : Matches F Inv s n) (hinv : Inv v (n.conns.length + 1))
    (hmem : (F.conns v)[n.conns.length]? = some conn)
    (hstarted : ∀ c, F.started v c = true ↔ F.started s.front c = true ∨ c = n.conns.length)
    (hconns : ∀ c, F.started s.front c = true → (F.conns v)[c]? = (F.conns s.front)[c]?) :
    Matches F Inv {s with front := v} {n with conns := n.conns ++ [conn]} := by
  refine ⟨h.process,?_,?_,?_,?_⟩
  · rw [List.length_append]
    exact hinv
  · intro c hc
    rcases (hstarted c).mp hc with hc | rfl
    · rw [hconns c hc]
      obtain ⟨conn,hconn,hnode⟩ := h.conns c hc
      exact ⟨conn,hconn,getElem?_concat_of_eq_some hnode⟩
    · exact ⟨conn,hmem,List.getElem?_concat_length⟩
  · intro c d hd hc
    have hnot : F.started s.front c ≠ true ∧ c ≠ n.conns.length := by
      rw [← not_or,← hstarted,hc]
      exact Bool.false_ne_true
    rcases getElem?_concat_cases hd with hd | ⟨heq,_⟩
    · exact h.idle c d hd (Bool.eq_false_iff.mpr hnot.1)
    · exact absurd heq hnot.2
  · intro c hc
    exact (hstarted c).mpr (Or.inl (h.channel c hc))

theorem register_none {o : ByteOrder} {e : ε} (h : F.registers e = none)
    (hp : register H o p (F.registers e) = some p') : p' = p := by
  rw [h] at hp
  exact (Option.some.inj hp).symm

/-- A step of the front. -/
theorem Matches.own (h : Matches F Inv s n) (hlaw : Lawful F H abi Inv Settled) {e : ε}
    (hset : Settled s.front t.front) (hs : Hosts.step F H abi s (.own e) = some t) :
    Simulated F Inv H abi s n (.own e) t := by
  obtain ⟨halive,p,v,hp,hv,rfl⟩ := own_eq_some.mp hs
  cases hlaw.own s.front v n.conns.length e halive h.front hset hv with
  | kept hkept =>
      cases hreg : F.registers e with
      | none =>
          obtain rfl := register_none hreg hp
          refine .none ?_ fun c _ => hkept.started c
          have hnext := h.kept hkept h.channel
          rwa [← h.process] at hnext ⊢
      | some r =>
          rw [hreg] at hp
          have hposted : posted s.process p = [] := by
            cases hp
            exact posted_of_append (List.append_nil _).symm
          have hlocal : Local n (.reghandler r.1 r.2) := trivial
          refine .one (.thread (.reghandler r.1 r.2)) ⟨p,n.conns⟩ ?_ ?_ nofun
            fun c _ => hkept.started c
          · refine step_thread.mpr ⟨hlocal,p,n.conns,?_,?_,rfl⟩
            · rw [h.process]
              exact hp
            · rw [h.process,hposted]
              rfl
          · refine h.kept hkept ?_
            cases hp
            exact h.channel
  | skipped silent hkept =>
      obtain rfl := register_none silent hp
      exact .one (.accept "") _ rfl (h.skipped hkept) nofun fun c _ => hkept.started c
  | opened silent addr conn fresh inv mem started conns =>
      obtain rfl := register_none silent hp
      have hagree := h.opened inv mem started conns
      have hstarts : ∀ c < n.conns.length, F.started v c = F.started s.front c := by
        intro c hc
        rw [Bool.eq_iff_iff,started]
        exact or_iff_left hc.ne
      rcases fresh with rfl | fresh
      · exact .one (.accept addr) _ rfl hagree nofun hstarts
      · refine .one (.connect addr) _ ?_ hagree nofun hstarts
        simp only [NodeState.step,fresh,Option.bind_eq_bind,Option.bind_some]
  | stopped silent c conn active mem moved =>
      obtain rfl := register_none silent hp
      refine .one (.io c .callStop) {n with conns := n.conns.set c conn.close} ?_ ?_ ?_
        fun d _ => moved.started d
      · exact step_io.mpr ⟨trivial,conn,conn.close,h.at_node active mem,rfl,rfl⟩
      · have hnext := h.moved active moved h.channel
        rwa [← h.process] at hnext ⊢
      · intro k bytes heq
        cases heq

/-- A step of another thread. -/
theorem Matches.thread (h : Matches F Inv s n) (hlaw : Lawful F H abi Inv Settled)
    {pe : RpcProcess.Event ℕ} (hs : Hosts.step F H abi s (.thread pe) = some t) :
    Simulated F Inv H abi s n (.thread pe) t := by
  obtain ⟨⟨_,hlives⟩,p,conns,hp,hpost,rfl⟩ := thread_eq_some.mp hs
  have hlocal : Local n pe := by
    cases pe with
    | setConnection conn =>
        cases conn with
        | none => trivial
        | some c => exact h.started_lt hlives.1
    | receive _ _ => exact hlives
    | reghandler _ _ | call _ _ _ | run _ | expire _ => trivial
  have hpe : ∀ k msg, pe ≠ .receive k msg := by
    intro k msg heq
    rw [heq] at hlocal
    exact hlocal
  have hchannel : ∀ c, p.channel.conn = some c → F.started s.front c = true := by
    intro c hc
    rcases conn_step hp with hsame | ⟨conn,rfl,hconn⟩
    · exact h.channel c (hsame ▸ hc)
    · obtain rfl := hconn.symm.trans hc
      exact hlives.1
  have hnode : RpcProcess.step H abi.order n.process pe = some p := by rw [h.process,hp]
  rcases thread_target hpe hp with hnil | ⟨k,msg,hk,hone⟩
  · rw [hnil] at hpost
    obtain rfl := Option.some.inj hpost
    rw [hlaw.same]
    refine .one (.thread pe) ⟨p,n.conns⟩ ?_ ?_ nofun fun _ _ => rfl
    · exact step_thread.mpr ⟨hlocal,p,n.conns,hnode,by rw [h.process,hnil]; rfl,rfl⟩
    · exact h.kept ⟨h.front,fun _ => rfl,fun _ _ => rfl⟩ hchannel
  · rw [hone] at hpost
    simp only [post,Option.bind_eq_bind,Option.bind_eq_some_iff,Option.some.injEq] at hpost
    obtain ⟨conn,hconn,conn',hwrite,rfl⟩ := hpost
    have hactive := h.channel k hk
    have hmoved := hlaw.write _ _ _ _ _ _ h.front hactive hconn hwrite
    refine .one (.thread pe) ⟨p,n.conns.set k conn'⟩ ?_ ?_ nofun fun d _ => hmoved.started d
    · refine step_thread.mpr ⟨hlocal,p,_,hnode,?_,rfl⟩
      rw [h.process,hone]
      simp only [post,h.at_node hactive hconn,hwrite,Option.bind_eq_bind,Option.bind_some]
    · exact h.moved hactive hmoved hchannel

/-- The handler of a read. -/
theorem Matches.runRead (h : Matches F Inv s n) (hlaw : Lawful F H abi Inv Settled) {i : ℕ}
    (hset : Settled s.front t.front) (hs : Hosts.step F H abi s (.runRead c i) = some t) :
    Simulated F Inv H abi s n (.runRead c i) t := by
  obtain ⟨⟨hrunning,hactive,_⟩,conn,hconn,hcases⟩ := runRead_cases hs
  have hnode := h.at_node hactive hconn
  rcases hcases with ⟨hin,v,hv,rfl⟩ | ⟨msg,p,v,hin,hp,hv,rfl⟩
  · obtain ⟨conn₁,conn',hconn₁,hstep,hmoved⟩ :=
      hlaw.advance _ _ _ _ _ hrunning h.front hactive hset hv
    obtain rfl := Option.some.inj (hconn.symm.trans hconn₁)
    refine .one (.runRead c i) _ ((step_runRead_unread hnode hin).mpr ⟨conn',hstep,rfl⟩) ?_ nofun
      fun d _ => hmoved.started d
    have hnext := h.moved hactive hmoved h.channel
    rwa [← h.process] at hnext ⊢
  · obtain ⟨conn₁,conn',hconn₁,hstep,hmoved⟩ :=
      hlaw.advance _ _ _ _ _ hrunning h.front hactive hset hv
    obtain rfl := Option.some.inj (hconn.symm.trans hconn₁)
    refine .one (.runRead c i) ⟨p,n.conns.set c conn'⟩ ?_ ?_ nofun fun d _ => hmoved.started d
    · refine (step_runRead_dispatch hnode hin).mpr ⟨p,conn',?_,?_,rfl⟩
      · rw [h.process,hp]
      · rw [h.process,hstep]
    · refine h.moved hactive hmoved ?_
      rcases conn_step hp with hsame | ⟨_,heq,_⟩
      · rw [hsame]
        exact h.channel
      · cases heq

/-- Every settled step of a host is a step of its node or none. -/
theorem Matches.step (h : Matches F Inv s n) (hlaw : Lawful F H abi Inv Settled) {e : Event ε}
    (hset : Settled s.front t.front) (hs : Hosts.step F H abi s e = some t) :
    Simulated F Inv H abi s n e t := by
  cases e with
  | own e => exact h.own hlaw hset hs
  | thread pe => exact h.thread hlaw hs
  | runRead c i => exact h.runRead hlaw hset hs
  | io c e =>
      obtain ⟨⟨hrunning,htransport,hactive,_⟩,v,hv,rfl⟩ := io_eq_some.mp hs
      obtain ⟨conn,conn',hconn,hstep,hmoved⟩ :=
        hlaw.advance _ _ _ _ _ hrunning h.front hactive hset hv
      refine .one (.io c e) {n with conns := n.conns.set c conn'} ?_ ?_ ?_
        fun d _ => hmoved.started d
      · exact step_io.mpr ⟨htransport,conn,conn',h.at_node hactive hconn,hstep,rfl⟩
      · have hnext := h.moved hactive hmoved h.channel
        rwa [← h.process] at hnext ⊢
      · intro k bytes heq
        cases heq
        rfl

/-- The step is settled. -/
def Settles (F : Front σ ε) (Settled : σ → σ → Prop) (H : Bytes → ℕ) (abi : Abi) (s : Host σ)
    (e : Event ε) : Prop := ∀ t ∈ Hosts.step F H abi s e, Settled s.front t.front

instance [∀ u v, Decidable (Settled u v)] (s : Host σ) (e : Event ε) :
    Decidable (Settles F Settled H abi s e) := inferInstanceAs (Decidable (∀ t ∈ _, _))

/-- A run of settled steps is matched by a run of a node. -/
theorem host_refines (hlaw : Lawful F H abi Inv Settled) {es : List (Event ε)}
    (hstart : Matches F Inv s Node.empty)
    (hset : AllSteps (Hosts.step F H abi) (Settles F Settled H abi) s es)
    (hrun : exec (Hosts.step F H abi) s es = some t) :
    ∃ fs n, exec (NodeState.step H abi) Node.empty fs = some n ∧ Matches F Inv t n := by
  have hstep : ∀ u e v n, Matches F Inv u n → Settles F Settled H abi u e →
      Hosts.step F H abi u e = some v → Matches F Inv v n ∨ ∃ e' n', True ∧
        NodeState.step H abi n e' = some n' ∧ Matches F Inv v n' := by
    intro u e v n hn hset hs
    cases hn.step hlaw (hset v hs) hs with
    | none agree _ => exact Or.inl agree
    | one e' n' steps agree _ _ => exact Or.inr ⟨e',n',trivial,steps,agree⟩
  obtain ⟨fs,n,_,hfs,hn⟩ := exec_simulates hstep hstart hset hrun
  exact ⟨fs,n,hfs,hn⟩

end Simulation

/-! ### One front inside another -/

section Embedding
variable {σ ε τ δ : Type}

/-- The front `G` does in the states `i u` what `F` does. -/
structure Embeds (F : Front σ ε) (G : Front τ δ) (i : σ → τ) (j : ε → δ) : Prop where
  conns : ∀ u, G.conns (i u) = F.conns u
  started : ∀ u c, G.started (i u) c = F.started u c
  held : ∀ u c, G.held (i u) c = F.held u c
  alive : ∀ u, G.alive (i u) = F.alive u
  running : ∀ u, G.running (i u) = F.running u
  replace : ∀ u conns, G.replace (i u) conns = i (F.replace u conns)
  closeConn : ∀ c u, G.closeConn c (i u) = i (F.closeConn c u)
  registers : ∀ e, G.registers (j e) = F.registers e
  step : ∀ H abi u e v, G.step H abi (i u) e = some v →
    ∃ f w, e = j f ∧ v = i w ∧ F.step H abi u f = some w

def mapHost (i : σ → τ) (s : Host σ) : Host τ := ⟨s.process,i s.front⟩

def mapEvent (j : ε → δ) : Event ε → Event δ
  | .own e => .own (j e)
  | .thread e => .thread e
  | .io c e => .io c e
  | .runRead c i => .runRead c i

variable {F : Front σ ε} {G : Front τ δ} {i : σ → τ} {j : ε → δ} {H : Bytes → ℕ} {abi : Abi}
  {u v : σ} {s : Host σ} {t : Host τ} {k c : ℕ}

theorem Embeds.advance (h : Embeds F G i j) {e : ConnectionState.Event} {w : τ}
    (hs : Hosts.advance G abi c e (i u) = some w) :
    ∃ v, Hosts.advance F abi c e u = some v ∧ w = i v := by
  simp only [Hosts.advance,Option.bind_eq_bind,Option.bind_eq_some_iff,Option.some.injEq] at hs ⊢
  obtain ⟨conn,hconn,conn',hstep,rfl⟩ := hs
  rw [h.conns] at hconn
  refine ⟨_,⟨conn,hconn,conn',hstep,rfl⟩,?_⟩
  rw [h.conns,h.replace,h.closeConn]
  split_ifs <;> rfl

theorem Embeds.holds (h : Embeds F G i j) (hs : Holds G (mapHost i s) c) : Holds F s c :=
  ⟨(h.started s.front c).symm.trans hs.1,hs.2.imp_left (h.held s.front c).symm.trans⟩

theorem Embeds.lives (h : Embeds F G i j) {e : RpcProcess.Event ℕ}
    (hs : Lives G (mapHost i s) e) : Lives F s e := by
  cases e with
  | setConnection conn =>
      cases conn with
      | none => trivial
      | some c => exact h.holds hs
  | receive _ _ => exact hs
  | reghandler _ _ | call _ _ _ | run _ | expire _ => trivial

/-- What its host does is what the host of `F` does. -/
theorem Embeds.host_step (h : Embeds F G i j) {e : Event δ}
    (hs : Hosts.step G H abi (mapHost i s) e = some t) :
    ∃ f u, e = mapEvent j f ∧ t = mapHost i u ∧ Hosts.step F H abi s f = some u := by
  cases e with
  | own e =>
      obtain ⟨halive,p,v,hp,hv,rfl⟩ := own_eq_some.mp hs
      obtain ⟨f,w,rfl,rfl,hw⟩ := h.step _ _ _ _ _ hv
      rw [h.registers] at hp
      exact ⟨.own f,⟨p,w⟩,rfl,rfl,
        own_eq_some.mpr ⟨(h.alive s.front).symm.trans halive,p,w,hp,hw,rfl⟩⟩
  | thread pe =>
      obtain ⟨⟨halive,hlives⟩,p,conns,hp,hpost,rfl⟩ := thread_eq_some.mp hs
      rw [show G.conns (mapHost i s).front = F.conns s.front from h.conns s.front] at hpost
      refine ⟨.thread pe,⟨p,F.replace s.front conns⟩,rfl,?_,thread_eq_some.mpr
        ⟨⟨(h.alive s.front).symm.trans halive,h.lives hlives⟩,p,conns,hp,hpost,rfl⟩⟩
      exact congrArg (Host.mk p) (h.replace s.front conns)
  | io c e =>
      obtain ⟨⟨hrunning,htransport,hholds⟩,v,hv,rfl⟩ := io_eq_some.mp hs
      obtain ⟨w,hw,rfl⟩ := h.advance hv
      exact ⟨.io c e,{s with front := w},rfl,rfl,io_eq_some.mpr
        ⟨⟨(h.running s.front).symm.trans hrunning,htransport,h.holds hholds⟩,w,hw,rfl⟩⟩
  | runRead c n =>
      obtain ⟨⟨hrunning,hholds⟩,conn,hconn,hcases⟩ := runRead_cases hs
      rw [show G.conns (mapHost i s).front = F.conns s.front from h.conns s.front] at hconn
      have hheld : F.running s.front = true ∧ Holds F s c :=
        ⟨(h.running s.front).symm.trans hrunning,h.holds hholds⟩
      rcases hcases with ⟨hin,v,hv,rfl⟩ | ⟨msg,p,v,hin,hp,hv,rfl⟩
      · obtain ⟨w,hw,rfl⟩ := h.advance hv
        exact ⟨.runRead c n,{s with front := w},rfl,rfl,
          (runRead_unread hconn hin).mpr ⟨hheld,w,hw,rfl⟩⟩
      · obtain ⟨w,hw,rfl⟩ := h.advance hv
        exact ⟨.runRead c n,⟨p,w⟩,rfl,rfl,(runRead_read hconn hin).mpr ⟨hheld,p,w,hp,hw,rfl⟩⟩

theorem Embeds.host_run (h : Embeds F G i j) {es : List (Event δ)}
    (hs : exec (Hosts.step G H abi) (mapHost i s) es = some t) :
    ∃ fs u, es = fs.map (mapEvent j) ∧ t = mapHost i u ∧
      exec (Hosts.step F H abi) s fs = some u := by
  induction es generalizing s with
  | nil => exact ⟨[],s,rfl,(Option.some.inj hs).symm,rfl⟩
  | cons e es ih =>
      obtain ⟨t',ht',hrun⟩ := (exec_cons_eq_some _).mp hs
      obtain ⟨f,v,rfl,rfl,hstep⟩ := h.host_step ht'
      obtain ⟨fs,u,rfl,rfl,hrest⟩ := ih hrun
      exact ⟨f :: fs,u,rfl,rfl,(exec_cons_eq_some _).mpr ⟨v,hstep,hrest⟩⟩

section Outcomes
variable {Inv : σ → ℕ → Prop} {Inv' : τ → ℕ → Prop}

theorem Embeds.kept (h : Embeds F G i j) (hinv : ∀ u k, Inv u k → Inv' (i u) k)
    (hkept : Kept F Inv u v k) : Kept G Inv' (i u) (i v) k := by
  refine ⟨hinv _ _ hkept.inv,fun c => ?_,fun c hc => ?_⟩
  · rw [h.started,h.started,hkept.started]
  · rw [h.started] at hc
    rw [h.conns,h.conns,hkept.conns c hc]

theorem Embeds.moved (h : Embeds F G i j) (hinv : ∀ u k, Inv u k → Inv' (i u) k)
    {conn : Connection} (hmoved : Moved F Inv u v k c conn) : Moved G Inv' (i u) (i v) k c conn := by
  refine ⟨hinv _ _ hmoved.inv,fun d => ?_,?_⟩
  · rw [h.started,h.started,hmoved.started]
  · rw [h.conns,h.conns,hmoved.conns]

theorem Embeds.outcome (h : Embeds F G i j) (hinv : ∀ u k, Inv u k → Inv' (i u) k) {e : ε}
    (hs : Outcome F H abi Inv u v k e) : Outcome G H abi Inv' (i u) (i v) k (j e) := by
  have hsilent : F.registers e = none → G.registers (j e) = none := (h.registers e).trans
  cases hs with
  | kept hkept => exact .kept (h.kept hinv hkept)
  | skipped silent hkept => exact .skipped (hsilent silent) (h.kept hinv hkept)
  | opened silent addr conn fresh inv mem started conns =>
      refine .opened (hsilent silent) addr conn fresh (hinv _ _ inv) ?_ ?_ ?_
      · rw [h.conns,mem]
      · intro c
        rw [h.started,h.started,started]
      · intro c hc
        rw [h.started] at hc
        rw [h.conns,h.conns,conns c hc]
  | stopped silent c conn active mem hmoved =>
      refine .stopped (hsilent silent) c conn ?_ ?_ (h.moved hinv hmoved)
      · rw [h.started,active]
      · rw [h.conns,mem]

end Outcomes
end Embedding
end SindiaRpc.Hosts
