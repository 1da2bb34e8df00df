import SindiaRpc.NetworkState
import SindiaRpc.MatchedLists

/-!
# What the streams of a network deliver

Where every `Write` on a connection finds nothing unsent, the messages that the
other end dispatches have the contents of the first messages written, whatever
all the processes do in between. So a request of a call is dispatched at most
once; and where both ends have come to rest, everything written was dispatched
and every request has its response.
-/
namespace SindiaRpc.NetworkDelivery
open MessageFrames DispatcherTable RpcChannel RpcProcess CallProgress ConnectionState
  ConnectionWrites ReadLoop StreamReading StreamContents ConnectionHistories ProcessWrites
  NodeState NodeHistories NetworkState GuardedRuns
open ClientState (hello)
open FrameBounds (shortRequest)

/-- `c` reads what `d` writes. -/
structure Reads (o : ByteOrder) (d c : Connection) : Prop where
  consumed : Consumed (lp64 o) c
  sequenced : Sequenced (lp64 o) d
  built : ∀ m ∈ d.written, Built o m
  stream : c.received <+: d.wire

section Links
variable {o : ByteOrder} {c d : Connection} {ds : List Message} {m : Message} {i : ℕ}

/-- What has been read of the front of the stream. -/
theorem Reads.front (h : Reads o d c) (hds : ∀ m ∈ ds, Delivered (lp64 o) m)
    (hfront : images ds <+: c.received) : ds.map content <+: d.written.map content :=
  contents_in_order hds h.built ((hfront.trans h.stream).trans h.sequenced.inOrder)

theorem Reads.dispatched (h : Reads o d c) : c.dispatched.map content <+: d.written.map content :=
  h.front h.consumed.inv.delivered h.consumed.front

/-- The same with the message that is dispatched next. -/
theorem Reads.incoming (h : Reads o d c) (hin : ConnectionState.incoming c i = some m) :
    (c.dispatched ++ [m]).map content <+: d.written.map content := by
  obtain ⟨hm,hfront⟩ := incoming_received h.consumed.inv hin
  refine h.front ?_ hfront
  exact List.forall_mem_append.mpr ⟨h.consumed.inv.delivered,List.forall_mem_singleton.mpr hm⟩

/-- Messages of one type keep their order. -/
theorem ofType_front {ms : List Message} (h : ds.map content <+: ms.map content) (type : MsgType) :
    (ofType type ds).map content <+: (ofType type ms).map content := by
  rw [ofType,ofType,filter_content,filter_content]
  exact h.filter _

/-- An id is part of the content. -/
theorem ids_of_contents (ms : List Message) : (ms.map fun m => m.header.id) =
    (ms.map content).map fun x => UInt32.ofNat x.id := by
  rw [List.map_map]
  apply List.map_congr_left
  intro m _
  exact (UInt32.ofNat_toNat).symm

theorem ids_front {ms : List Message} (h : ds.map content <+: ms.map content) (type : MsgType) :
    ((ofType type ds).map fun m => m.header.id) <+: (ofType type ms).map fun m => m.header.id := by
  rw [ids_of_contents,ids_of_contents]
  exact (ofType_front h type).map _

theorem ids_same {ms : List Message} (h : ds.map content = ms.map content) (type : MsgType) :
    ((ofType type ds).map fun m => m.header.id) = (ofType type ms).map fun m => m.header.id := by
  rw [ids_of_contents,ids_of_contents,ofType,ofType,filter_content,filter_content,h]

/-- The ids of the requests read are those of the responses written. -/
theorem answered_ids {s : Process ℕ} {ls : List (Message × Option (Bytes → Bytes))}
    {ms : List Message} (h : List.Forall₂ (Answered s) (asked ls) ms) :
    (ms.map fun m => m.header.id) = (ofType .request (ls.map Prod.fst)).map fun m => m.header.id := by
  rw [← asked_messages,List.map_map]
  exact (MatchedLists.map_eq h fun _ _ ha => ha.id.symm).symm

/-- Along both streams: what is read of the responses answers the first requests
written. -/
theorem response_ids {s : Process ℕ} {ls : List (Message × Option (Bytes → Bytes))}
    (hds : ds.map content <+: d.written.map content) (hls : d.dispatched = ls.map Prod.fst)
    (hreplied : List.Forall₂ (Answered s) (asked ls) (ofType .response d.written))
    (hback : Reads o c d) :
    ((ofType .response ds).map fun m => m.header.id) <+:
      (ofType .request c.written).map fun m => m.header.id := by
  have hresponses := ids_front hds .response
  rw [answered_ids hreplied,← hls] at hresponses
  exact hresponses.trans (ids_front hback.dispatched .request)

/-- A stream that starts with a frame is not empty. -/
theorem ne_nil_of_front {bs : Bytes} (hds : ∀ m ∈ ds, Delivered (lp64 o) m)
    (hfront : images ds <+: bs) (hm : m ∈ ds) : bs ≠ [] := by
  rintro rfl
  have hnil := List.flatten_eq_nil_iff.mp (List.prefix_nil.mp hfront) m.wireImage
    (List.mem_map.mpr ⟨m,hm,rfl⟩)
  have hlen := length_wireImage (hds m hm)
  rw [hnil,List.length_nil] at hlen
  omega

/-- Bytes that have been received come from a connection that exists. -/
theorem far_end {ι : Type*} {peer : Peers ι} {net : ι → Node} {a : ι} {k : ℕ} {l : ι × ℕ}
    (h : Linked peer net) (hpeer : peer a k = some l) (hc : (net a).conns[k]? = some c)
    (hne : c.received ≠ []) : ∃ d, (net l.1).conns[l.2]? = some d := by
  have hfront := h a k l hpeer
  rw [received_eq hc] at hfront
  cases hd : (net l.1).conns[l.2]? with
  | some d => exact ⟨d,rfl⟩
  | none =>
      rw [wire,hd] at hfront
      exact absurd (List.prefix_nil.mp hfront) hne

end Links

section Runs
variable {ι : Type*} [DecidableEq ι] {H : Bytes → ℕ} {o : ByteOrder} {peer : Peers ι} {a b : ι}
  {net : ι → Node} {es : List (ι × NodeState.Event)} {k j : ℕ} {c d : Connection}

theorem run_reads (hrun : exec (NetworkState.step H (lp64 o) peer) start es = some net)
    (hpeer : peer a k = some (b,j)) (hc : (net a).conns[k]? = some c)
    (hd : (net b).conns[j]? = some d)
    (hpaced : AllSteps (NetworkState.step H (lp64 o) peer) (PacedAt H (lp64 o) (b,j)) start es) :
    Reads o d c where
  consumed := (node_composed (run_node hrun a)).consumed hc
  sequenced := run_sequenced hrun hpaced hd
  built := (node_composed (run_node hrun b)).built hd
  stream := by
    have hfront := run_linked hrun a k _ hpeer
    rwa [received_eq hc,wire_eq hd] at hfront

/-- The requests written on a connection are those of different calls. -/
theorem requests_written {n : Node} {es : List NodeState.Event}
    (hrun : exec (NodeState.step H (lp64 o)) Node.empty es = some n)
    (hd : n.conns[j]? = some d) : ∃ ts : List ℕ, ts.Nodup ∧
      List.Forall₂ (Requested H o n.process) ts (ofType .request d.written) := by
  have hcomposed := node_composed hrun
  obtain ⟨pes,hpes⟩ := hcomposed.process
  obtain ⟨ts,hts⟩ := run_called hpes
  have hall := hts.requests.imp fun _ _ hw => hw.requested (run_made hpes)
  have hsub : (ofType .request d.written).Sublist
      (ofType .request (n.process.writes.map Prod.snd)) := by
    rw [hcomposed.written_type hd (by decide)]
    exact ((List.filter_sublist).map _).filter _
  obtain ⟨us,hus,hmatch⟩ := MatchedLists.sublist_left hall hsub
  exact ⟨us,hus.nodup hts.distinct,hmatch⟩

end Runs

/-- The messages that an end of a stream dispatches have the contents of the
first messages written at the other end, in order and each once; the requests
among them are those of different calls. -/
theorem dispatched_in_order {ι : Type*} [DecidableEq ι] (H : Bytes → ℕ) (o : ByteOrder)
    (peer : Peers ι) (es : List (ι × NodeState.Event)) (net : ι → Node) (a b : ι) (k j : ℕ)
    (c d : Connection) (hrun : exec (NetworkState.step H (lp64 o) peer) start es = some net)
    (hpeer : peer a k = some (b,j)) (hc : (net a).conns[k]? = some c)
    (hd : (net b).conns[j]? = some d)
    (hpaced : AllSteps (NetworkState.step H (lp64 o) peer) (PacedAt H (lp64 o) (b,j)) start es) :
    c.dispatched.map content <+: d.written.map content ∧
    ∃ ts : List ℕ, ts.Nodup ∧ List.Forall₂
      (fun t m => ∃ request, Requested H o (net b).process t request ∧ content m = content request)
      ts (ofType .request c.dispatched) := by
  have hreads := run_reads hrun hpeer hc hd hpaced
  obtain ⟨ts,hts,hmatch⟩ := requests_written (run_node hrun b) hd
  obtain ⟨us,hus,hfront⟩ := MatchedLists.front_right hmatch (ofType_front hreads.dispatched .request)
  exact ⟨hreads.dispatched,us,hus.sublist.nodup hts,hfront⟩

/-- Two processes, each with one connection that leads to the other. -/
def pair : Peers Bool := fun a k => if k = 0 then some (!a,0) else none

def greetingFrame : Bytes := ((hello (fun _ => 5) .little).getD .empty).frame (lp64 .little)

/-- A client greets a server and writes a request; the server reads both. -/
def pairRun : List (Bool × NodeState.Event) :=
  [(true,.thread (.reghandler [1] (some id))),(true,.accept "a"),(false,.connect "b"),
    (false,.io 0 (.sendChunk 0 33)),(false,.thread (.setConnection (some 0))),
    (false,.thread (.call [1] [7] []))] ++ List.replicate 9 (false,.thread (.run 0)) ++
    [(false,.io 0 (.sendChunk 1 21))] ++
    (readFrame 0 greetingFrame ++ readFrame 0 (shortRequest.frame (lp64 .little))).map (Prod.mk true)

set_option maxRecDepth 20000 in
theorem pairRun_paced : AllSteps (NetworkState.step (fun _ => 5) (lp64 .little) pair)
    (PacedAt (fun _ => 5) (lp64 .little) (false,0)) start pairRun := by decide +kernel

theorem dispatched_in_order_pair :
    ∃ net ∈ exec (NetworkState.step (fun _ => 5) (lp64 .little) pair) start pairRun,
      ∃ c ∈ (net true).conns[0]?, ∃ d ∈ (net false).conns[0]?, c.dispatched.length = 2 ∧
        c.dispatched.map content <+: d.written.map content := by
  have hrun : ∃ net ∈ exec (NetworkState.step (fun _ => 5) (lp64 .little) pair) start pairRun,
      ∃ c ∈ (net true).conns[0]?, ∃ d ∈ (net false).conns[0]?, c.dispatched.length = 2 := by decide
  obtain ⟨net,hnet,c,hc,d,hd,hlen⟩ := hrun
  exact ⟨net,hnet,c,hc,d,hd,hlen,
    (dispatched_in_order _ _ pair _ net true false 0 0 c d hnet rfl hc hd pairRun_paced).1⟩

/-! ### Rest -/

/-- An open end with nothing left to read or to send. -/
structure Resting (c : Connection) : Prop where
  healthy : Healthy c
  quiescent : Quiescent c
  idle : WritesIdle c

instance (c : Connection) : Decidable (Resting c) :=
  decidable_of_iff (c.isOpen = true ∧ (∀ op ∈ c.reads, ∀ e ∈ op.result, e = 0) ∧
      (∀ op ∈ c.writes, (∀ e ∈ op.bound, e = 0) ∧ ∀ e ∈ op.result, e = 0) ∧ Quiescent c ∧
      WritesIdle c)
    ⟨fun h => ⟨⟨h.1,h.2.1,h.2.2.1⟩,h.2.2.2.1,h.2.2.2.2⟩,
      fun h => ⟨h.healthy.isOpen,h.healthy.reads,h.healthy.writes,h.quiescent,h.idle⟩⟩

/-- A stream that has been sent and read to its end. -/
theorem Reads.all {o : ByteOrder} {c d : Connection} (h : Reads o d c) (hc : Resting c)
    (hd : Resting d) (harrived : c.received = d.wire) :
    c.dispatched.map content = d.written.map content := by
  apply contents_at_rest h.consumed.inv hc.healthy hc.quiescent h.built
  rw [harrived]
  exact wire_of_idle h.sequenced hd.healthy.isOpen hd.idle

/-- Where both ends of a connection have come to rest, each has dispatched what
the other has written, and the responses dispatched are those to the requests
written, one for each. -/
theorem all_delivered_at_rest {ι : Type*} [DecidableEq ι] (H : Bytes → ℕ) (o : ByteOrder)
    (peer : Peers ι) (es : List (ι × NodeState.Event)) (net : ι → Node) (a b : ι) (k j : ℕ)
    (c d : Connection) (hrun : exec (NetworkState.step H (lp64 o) peer) start es = some net)
    (hpeer : peer a k = some (b,j)) (hback : peer b j = some (a,k))
    (hc : (net a).conns[k]? = some c) (hd : (net b).conns[j]? = some d)
    (hpacedA : AllSteps (NetworkState.step H (lp64 o) peer) (PacedAt H (lp64 o) (a,k)) start es)
    (hpacedB : AllSteps (NetworkState.step H (lp64 o) peer) (PacedAt H (lp64 o) (b,j)) start es)
    (hrestA : Resting c) (hrestB : Resting d) (harrivedA : c.received = d.wire)
    (harrivedB : d.received = c.wire) :
    c.dispatched.map content = d.written.map content ∧
      d.dispatched.map content = c.written.map content ∧
      ((ofType .response c.dispatched).map fun m => m.header.id) =
        (ofType .request c.written).map fun m => m.header.id := by
  have hin := run_reads hrun hpeer hc hd hpacedB
  have hout := run_reads hrun hback hd hc hpacedA
  have hcontents := hin.all hrestA hrestB harrivedA
  have hcontents' := hout.all hrestB hrestA harrivedB
  refine ⟨hcontents,hcontents',?_⟩
  have hcomposed := node_composed (run_node hrun b)
  rw [ids_same hcontents,answered_ids (hcomposed.replied hd),← hcomposed.looked hd,
    ids_same hcontents']

def replyFrame : Bytes := ((Message.build .little [7] 2 1 5 0).getD .empty).frame (lp64 .little)

/-- The server's response is sent, and the client has read it. -/
def arrivedRun : List (Bool × NodeState.Event) :=
  pairRun ++ (true,.io 0 (.sendChunk 0 21)) :: ((readFrame 0 replyFrame).take 4).map (Prod.mk false)

def exchangeRun : List (Bool × NodeState.Event) := arrivedRun ++ [(false,.runRead 0 0)]

set_option maxRecDepth 20000 in
theorem exchangeRun_paced : ∀ b, AllSteps (NetworkState.step (fun _ => 5) (lp64 .little) pair)
    (PacedAt (fun _ => 5) (lp64 .little) (b,0)) start exchangeRun := by decide +kernel

theorem all_delivered_at_rest_pair :
    ∃ net ∈ exec (NetworkState.step (fun _ => 5) (lp64 .little) pair) start exchangeRun,
      ∃ c ∈ (net false).conns[0]?, ∃ d ∈ (net true).conns[0]?, c.dispatched.length = 1 ∧
        ((ofType .response c.dispatched).map fun m => m.header.id) =
          (ofType .request c.written).map fun m => m.header.id := by
  have hrun : ∃ net ∈ exec (NetworkState.step (fun _ => 5) (lp64 .little) pair) start exchangeRun,
      ∃ c ∈ (net false).conns[0]?, ∃ d ∈ (net true).conns[0]?, c.dispatched.length = 1 ∧
        Resting c ∧ Resting d ∧ c.received = d.wire ∧ d.received = c.wire := by decide +kernel
  obtain ⟨net,hnet,c,hc,d,hd,hlen,hrestA,hrestB,harrivedA,harrivedB⟩ := hrun
  exact ⟨net,hnet,c,hc,d,hd,hlen,(all_delivered_at_rest _ _ pair _ net false true 0 0 c d hnet rfl rfl
    hc hd (exchangeRun_paced false) (exchangeRun_paced true) hrestA hrestB harrivedA harrivedB).2.2⟩

end SindiaRpc.NetworkDelivery
