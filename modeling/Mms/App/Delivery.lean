import Mms.App.Network
import Mms.Lib.Blocks

/-!
# From the server to the orders

What the client of a `System` makes of the bytes it reads, in every run and across its reconnects.

* `Reading`: a step, as the client's connection sees it.
* `ticks_in_order`: as long as a read of full size starts where a record starts, the ticks the
  client counts are ticks of the server, in the order of their generation and each at most once.
* `gaps_at_reconnects`: as long as reads get a record or nothing, what the client counts on one
  connection is a block of consecutive ticks.
* `orders_from_ticks`: the orders are made of ticks of the server, in order and of each at most one.
-/

namespace Mms

open Lib

namespace System

variable {L : Layout} {N M : ℕ} {h : List Label} {s s' : System N M} {e : Label}

/-! ## What the client receives -/

/-- What the client decodes from its reads. -/
def decodedBy (L : Layout) (h : List Label) : List MarketData :=
  (LTS.seen Pipeline.received (clientSteps h)).filterMap fun result =>
    result.bind (Pipeline.decodeChunk L.decode)

/-- **A read of full size that starts at record `q`** is decoded to the tick sent as record `q`. -/
theorem Served.recv_record (hv : Served L h s) {k : ℕ} {c : Connection}
    (hc : s.network.connections[k]? = some c) {n q : ℕ} (hread : c.read = q * MarketData.size)
    (hlen : (c.recv L n).length = MarketData.size) :
    ∃ md, c.sent[q]? = some md ∧ Pipeline.decodeChunk L.decode (c.recv L n) = some md := by
  have hsize : ∀ r ∈ c.sent.map fun md => (L.encode md).toList, r.length = MarketData.size := by
    intro r hr
    obtain ⟨md, -, rfl⟩ := List.mem_map.mp hr
    exact Vector.length_toList
  unfold Connection.recv Connection.stream at hlen ⊢
  rw [hread] at hlen ⊢
  have hrecord := record_of_slice hsize (hv.offered k c hc).cut (min_le_right _ _) hlen
  rw [List.getElem?_map] at hrecord
  obtain ⟨md, hmd, hbytes⟩ := Option.map_eq_some_iff.mp hrecord
  refine ⟨md, hmd, ?_⟩
  rw [← hbytes, Pipeline.decodeChunk_toList, hv.decode_encode hc (List.mem_of_getElem? hmd)]

/-- What a step of the client decodes. -/
def decodes (L : Layout) (e : Label) : List MarketData :=
  ((bytesRead e).bind (Pipeline.decodeChunk L.decode)).toList

theorem decodedBy_cons (e : Label) (h : List Label) :
    decodedBy L (e :: h) = decodedBy L h ++ decodes L e := by
  have hquiet : ∀ label, Pipeline.received label = none →
      decodedBy L (.client label :: h) = decodedBy L h ++ [] := by
    intro label hn
    rw [decodedBy, clientSteps_cons, LTS.seen_cons, hn, Option.toList_none, List.append_nil,
      List.append_nil]
    rfl
  cases e with
  | server | connect | start => exact (List.append_nil _).symm
  | client label =>
    cases label with
    | stop => exact hquiet _ rfl
    | thread role act =>
      cases role with
      | strategy | execution => exact hquiet _ rfl
      | network =>
        cases act with
        | recv result =>
          rw [decodedBy, clientSteps_cons, LTS.seen_cons, List.filterMap_append]
          refine congrArg _ ?_
          cases hb : result.bind (Pipeline.decodeChunk L.decode) <;>
            simp [Pipeline.received, decodes, bytesRead, hb]
        | _ => exact hquiet _ rfl

/-- **A step, as the client's connection sees it.** -/
inductive Reading (L : Layout) (s s' : System N M) : Label → Prop
  /-- The client keeps its connection; more may have been sent on it. -/
  | quiet {e : Label} (hd : decodes L e = []) (hcount : clientConnects e = none)
      (hclient : s'.network.client = s.network.client)
      (hconn : ∀ k c', s.network.client = some k → s'.network.connections[k]? = some c' →
        ∃ c, s.network.connections[k]? = some c ∧ c.sent <+: c'.sent ∧ c'.read = c.read) :
      Reading L s s' e
  | connects {e : Label} (hd : decodes L e = []) (hcount : clientConnects e = some ())
      (hclient : s'.network.client = some s.network.connections.length)
      (hnew : s'.network.connections[s.network.connections.length]? = some .new) :
      Reading L s s' e
  | reads {k n : ℕ} {c : Connection} (hclient : s.network.client = some k)
      (hclient' : s'.network.client = some k) (hc : s.network.connections[k]? = some c)
      (hc' : s'.network.connections[k]? =
        some { c with read := c.read + (c.recv L n).length })
      (hposition : s.network.position = c.read) :
      Reading L s s' (.client (.thread .network (.recv (some (c.recv L n)))))

theorem connect_new (net : Network) :
    net.connect.connections[net.connections.length]? = some .new := by
  simp [Network.connect]

/-- A step of the server lets every connection be read as before. -/
theorem afterServer_reading {net net' : Network} {act : ServerAct}
    (hnet : net.afterServer L act = some net') : net'.client = net.client ∧
      ∀ (k : ℕ) c', net'.connections[k]? = some c' →
        ∃ c, net.connections[k]? = some c ∧ c.sent <+: c'.sent ∧ c'.read = c.read := by
  unfold Network.afterServer at hnet
  split at hnet
  case h_1 | h_2 =>
    split at hnet
    · obtain rfl := Option.some.inj hnet
      exact ⟨rfl, fun k c' hc' => ⟨c', hc', List.prefix_refl _, rfl⟩⟩
    · exact absurd hnet (by simp)
  case h_3 | h_4 =>
    obtain rfl := Option.some.inj hnet
    refine ⟨rfl, fun k c' hc' => ?_⟩
    obtain ⟨c, hc, rfl⟩ := modify_connections hc'
    refine ⟨c, hc, ?_⟩
    split
    · exact ⟨by simp, rfl⟩
    · exact ⟨List.prefix_refl _, rfl⟩
  all_goals
    obtain rfl := Option.some.inj hnet
    exact ⟨rfl, fun k c' hc' => ⟨c', hc', List.prefix_refl _, rfl⟩⟩

theorem Step.reading (hv : Served L h s) (hs : Step L s e s') : Reading L s s' e := by
  have hsame : ∀ {s' : System N M} {e : Label}, s'.network = s.network → decodes L e = [] →
      clientConnects e = none → Reading L s s' e := by
    intro s' e hnet hd hcount
    refine .quiet hd hcount (by rw [hnet]) fun k c' _ hc' => ?_
    exact ⟨c', hnet ▸ hc', List.prefix_refl _, rfl⟩
  cases hs with
  | server env hnet =>
    obtain ⟨hclient, hconn⟩ := afterServer_reading hnet
    exact .quiet rfl rfl hclient fun k c' _ hc' => hconn k c' hc'
  | connect =>
    refine .quiet rfl rfl rfl fun k c' hk hc' => ?_
    have hlt := hv.client k hk
    have hget : (s.network.connections ++ [Connection.new])[k]? = some c' := hc'
    rw [List.getElem?_append_left hlt] at hget
    exact ⟨c', hget, List.prefix_refl _, rfl⟩
  | refused => exact hsame rfl rfl rfl
  | start => exact .connects rfl rfl rfl (connect_new _)
  | @client label p hstarted hstep hrecv =>
    unfold Network.afterClient
    split
    · exact .connects rfl rfl rfl (connect_new _)
    · rename_i bytes
      obtain ⟨n, hbytes⟩ := hrecv bytes rfl
      cases hclient : s.network.client with
      | none =>
        -- nothing is read where there is no connection
        have hnil : bytes = [] := by
          rw [hbytes, Network.recv, hclient]
          rfl
        rw [hnil]
        exact hsame rfl rfl rfl
      | some k =>
        have hlt := hv.client k hclient
        obtain ⟨c, hc⟩ : ∃ c, s.network.connections[k]? = some c :=
          ⟨_, List.getElem?_eq_getElem hlt⟩
        have hrecv : s.network.recv L n = c.recv L n := by
          rw [Network.recv, hclient, Option.bind_some, hc]
          rfl
        have hposition : s.network.position = c.read := by
          rw [Network.position, hclient, Option.bind_some, hc]
          rfl
        rw [hrecv] at hbytes
        subst hbytes
        refine .reads hclient hclient hc ?_ hposition
        simp [Network.modify, hc]
    · rename_i hconnect hread
      refine hsame rfl ?_ ?_
      · have hnone : bytesRead (.client label) = none := by
          unfold bytesRead
          split
          · rename_i result hb
            obtain rfl := Label.client.inj hb
            cases result with
            | none => rfl
            | some bytes => exact absurd rfl (hread bytes)
          · rfl
        rw [decodes, hnone]
        rfl
      · unfold clientConnects
        split
        · rename_i hb
          exact absurd hb (by simp)
        · rename_i hb
          obtain rfl := Label.client.inj hb
          exact absurd rfl hconnect
        · rfl

/-! ## In order -/

/-- **What the client has decoded**, by the connection it is on. -/
structure Reads (L : Layout) (h : List Label) (s : System N M) : Prop where
  idle : s.network.client = none → decodedBy L h = []
  reads : ∀ k c, s.network.client = some k → s.network.connections[k]? = some c →
    (decodedBy L h).Sublist (before h k ++ c.sent.take (c.read / MarketData.size))

theorem Reads.sublist (hv : Served L h s) (hr : Reads L h s) :
    (decodedBy L h).Sublist (generated h) := by
  cases hclient : s.network.client with
  | none =>
    rw [hr.idle hclient]
    exact List.nil_sublist _
  | some k =>
    have hc := List.getElem?_eq_getElem (hv.client k hclient)
    obtain ⟨later, hsplit⟩ := hv.split k
    refine (hr.reads k _ hclient hc).trans ?_
    rw [hsplit]
    refine (List.Sublist.refl _).append ?_
    exact ((List.take_sublist _ _).trans (hv.sent_prefix hc).sublist).trans
      (List.sublist_append_left _ _)

theorem Reads.step (hv : Served L h s) (hr : Reads L h s) (ha : Aligned s e)
    (hs : Step L s e s') : Reads L (e :: h) s' := by
  cases hs.reading hv with
  | quiet hd hcount hclient hconn =>
    have hsame : decodedBy L (e :: h) = decodedBy L h := by
      rw [decodedBy_cons, hd, List.append_nil]
    refine ⟨fun hn => hsame ▸ hr.idle (hclient ▸ hn), fun k c' hk hc' => ?_⟩
    rw [hclient] at hk
    obtain ⟨c, hc, hsent, hread⟩ := hconn k c' hk hc'
    rw [hsame, hread]
    exact (hr.reads k c hk hc).trans ((before_sublist e h k).append (hsent.take _).sublist)
  | connects hd hcount hclient hnew =>
    refine ⟨fun hn => absurd (hn.symm.trans hclient) (by simp), fun k c' hk hc' => ?_⟩
    obtain rfl := Option.some.inj (hclient.symm.trans hk)
    obtain rfl := Option.some.inj (hnew.symm.trans hc')
    rw [decodedBy_cons, hd, List.append_nil]
    refine (hr.sublist hv).trans (.trans ?_ (List.sublist_append_left _ _))
    rw [← hv.before_all hv.accepted]
    exact before_sublist e h _
  | @reads k n c hclient hclient' hc hc' hposition =>
    refine ⟨fun hn => absurd (hn.symm.trans hclient') (by simp), fun j c' hk hc'' => ?_⟩
    obtain rfl := Option.some.inj (hclient'.symm.trans hk)
    obtain rfl := Option.some.inj (hc'.symm.trans hc'')
    rw [decodedBy_cons]
    have hold := hr.reads k c hclient hc
    by_cases hlen : (c.recv L n).length = MarketData.size
    · -- a read of full size starts where a record starts
      obtain ⟨q, hq⟩ := ha _ rfl hlen
      rw [hposition, Nat.mul_comm] at hq
      obtain ⟨md, hmd, hdecode⟩ := hv.recv_record hc hq hlen
      have hdiv : c.read / MarketData.size = q := by
        rw [hq]
        exact Nat.mul_div_cancel q (by decide)
      have hdiv' : (c.read + MarketData.size) / MarketData.size = q + 1 := by
        rw [Nat.add_div_right _ (by decide), hdiv]
      rw [hdiv] at hold
      simp only [decodes, bytesRead, Option.bind_some, hdecode, hlen, hdiv', List.take_add_one,
        hmd, Option.toList_some]
      rw [← List.append_assoc]
      exact (hold.append (List.Sublist.refl [md]))
    · have hnone : Pipeline.decodeChunk L.decode (c.recv L n) = none := dif_neg hlen
      simp only [decodes, bytesRead, Option.bind_some, hnone, Option.toList_none,
        List.append_nil]
      refine hold.trans ((List.Sublist.refl _).append ?_)
      exact List.take_sublist_take_left (Nat.div_le_div_right (Nat.le_add_right _ _))

theorem aligned_run (hr : ((system N M L).restrict Aligned).Run h s) : Reads L h s := by
  refine LTS.Run.invariant (I := Reads L) (fun s h0 => ?_) (fun h s e s' hr hi hs => ?_) hr
  · obtain ⟨-, -, hnet, -⟩ := h0
    refine ⟨fun _ => rfl, fun k c hk => ?_⟩
    rw [hnet] at hk
    exact absurd hk (by simp [Network.empty])
  · obtain ⟨ha, m, hm⟩ := hs
    exact hi.step (served_run hr.of_restrict) ha (next_cases hm)

/-! ## Without gaps -/

theorem generated_cons (e : Label) (h : List Label) :
    ∃ zs, generated (e :: h) = generated h ++ zs := by
  refine ⟨(served e).toList.map Prod.snd, ?_⟩
  rw [generated, LTS.seen_cons, List.map_append]
  rfl

theorem before_le (h : List Label) (k : ℕ) : (before h k).length ≤ (generated h).length := by
  rw [before, generated, List.length_map, List.length_map]
  exact List.length_filter_le _ _

/-- **What the client has decoded** when reads get a record or nothing: a block of the ticks
generated for each of its earlier connections, and of those sent on the present one as many as it
has read. -/
structure Gapless (L : Layout) (h : List Label) (s : System N M) : Prop where
  idle : s.network.client = none → decodedBy L h = []
  reads : ∀ k c, s.network.client = some k → s.network.connections[k]? = some c →
    ∃ q n a xs, c.read = q * MarketData.size ∧ q ≤ c.sent.length ∧
      n < (LTS.seen clientConnects h).length ∧ a ≤ (before h k).length ∧
      Blocks (generated h) n a xs ∧ decodedBy L h = xs ++ c.sent.take q

/-- One block for each connection of the client. -/
theorem Gapless.blocks (hv : Served L h s) (hg : Gapless L h s) :
    ∃ n a, n ≤ (LTS.seen clientConnects h).length ∧ a ≤ (generated h).length ∧
      Blocks (generated h) n a (decodedBy L h) := by
  cases hclient : s.network.client with
  | none =>
    rw [hg.idle hclient]
    exact ⟨0, 0, Nat.zero_le _, Nat.zero_le _, .nil⟩
  | some k =>
    obtain ⟨c, hc⟩ : ∃ c, s.network.connections[k]? = some c :=
      ⟨_, List.getElem?_eq_getElem (hv.client k hclient)⟩
    obtain ⟨q, n, a, xs, -, hq, hn, ha, hb, hdec⟩ := hg.reads k c hclient hc
    obtain ⟨later, hsplit⟩ := hv.split k
    obtain ⟨lost, hlost⟩ := hv.sent_prefix hc
    -- what was read on the present connection begins where the ticks for it begin
    have hslice : slice (generated h) (before h k).length q = c.sent.take q := by
      rw [hsplit, slice, List.drop_left, ← hlost, List.append_assoc,
        List.take_append_of_le_length hq]
    refine ⟨n + 1, (before h k).length + q, hn, ?_, ?_⟩
    · rw [hsplit, ← hlost]
      simp only [List.length_append]
      omega
    · rw [hdec, ← hslice]
      exact .snoc hb q ha

theorem Gapless.step (hv : Served L h s) (hg : Gapless L h s) (hw : Whole s e)
    (hs : Step L s e s') : Gapless L (e :: h) s' := by
  obtain ⟨zs, hzs⟩ := generated_cons e h
  cases hs.reading hv with
  | quiet hd hcount hclient hconn =>
    have hsame : decodedBy L (e :: h) = decodedBy L h := by
      rw [decodedBy_cons, hd, List.append_nil]
    refine ⟨fun hn => hsame ▸ hg.idle (hclient ▸ hn), fun k c' hk hc' => ?_⟩
    rw [hclient] at hk
    obtain ⟨c, hc, ⟨more, hmore⟩, hread⟩ := hconn k c' hk hc'
    obtain ⟨q, n, a, xs, hr, hq, hn, ha, hb, hdec⟩ := hg.reads k c hk hc
    refine ⟨q, n, a, xs, by rw [hread, hr], ?_, ?_, ?_, ?_, ?_⟩
    · rw [← hmore, List.length_append]
      omega
    · rwa [LTS.seen_cons, hcount, Option.toList_none, List.append_nil]
    · exact ha.trans (before_sublist e h k).length_le
    · rw [hzs]
      exact hb.append_right (ha.trans (before_le h k)) zs
    · rw [hsame, hdec, ← hmore, List.take_append_of_le_length hq]
  | connects hd hcount hclient hnew =>
    refine ⟨fun hn => absurd (hn.symm.trans hclient) (by simp), fun k c' hk hc' => ?_⟩
    obtain rfl := Option.some.inj (hclient.symm.trans hk)
    obtain rfl := Option.some.inj (hnew.symm.trans hc')
    obtain ⟨n, a, hn, ha, hb⟩ := hg.blocks hv
    refine ⟨0, n, a, decodedBy L h, rfl, Nat.zero_le _, ?_, ?_, ?_, ?_⟩
    · rw [LTS.seen_cons, hcount, List.length_append]
      exact Nat.lt_succ_of_le hn
    · rw [← hv.before_all hv.accepted] at ha
      exact ha.trans (before_sublist e h _).length_le
    · rw [hzs]
      exact hb.append_right ha zs
    · rw [decodedBy_cons, hd]
      rfl
  | @reads k n c hclient hclient' hc hc' hposition =>
    refine ⟨fun hn => absurd (hn.symm.trans hclient') (by simp), fun j c' hk hc'' => ?_⟩
    obtain rfl := Option.some.inj (hclient'.symm.trans hk)
    obtain rfl := Option.some.inj (hc'.symm.trans hc'')
    obtain ⟨q, m, a, xs, hr, hq, hm, ha, hb, hdec⟩ := hg.reads k c hclient hc
    rw [decodedBy_cons]
    rcases hw _ rfl with hnil | hlen
    · refine ⟨q, m, a, xs, ?_, hq, hm, ha, hb, ?_⟩
      · rw [hnil]
        exact hr
      · rw [hdec, hnil]
        exact List.append_nil _
    · obtain ⟨md, hmd, hdecode⟩ := hv.recv_record hc hr hlen
      obtain ⟨hlt, -⟩ := List.getElem?_eq_some_iff.mp hmd
      refine ⟨q + 1, m, a, xs, ?_, hlt, hm, ha, hb, ?_⟩
      · rw [hlen, hr, Nat.succ_mul]
      · simp only [decodes, bytesRead, Option.bind_some, hdecode, hdec, List.take_add_one, hmd,
          Option.toList_some, List.append_assoc]

theorem whole_run (hr : ((system N M L).restrict Whole).Run h s) : Gapless L h s := by
  refine LTS.Run.invariant (I := Gapless L) (fun s h0 => ?_) (fun h s e s' hr hi hs => ?_) hr
  · obtain ⟨-, -, hnet, -⟩ := h0
    refine ⟨fun _ => rfl, fun k c hk => ?_⟩
    rw [hnet] at hk
    exact absurd hk (by simp [Network.empty])
  · obtain ⟨hw, m, hm⟩ := hs
    exact hi.step (served_run hr.of_restrict) hw (next_cases hm)

/-! ## From the server to the orders -/

/-- What the client has counted, and the tick it is about to count, is what it has decoded. -/
theorem counted_decoded (hr : (system N M L).Run h s) :
    LTS.seen Pipeline.counted (clientSteps h) ++ s.client.receive.decoded = decodedBy L h :=
  Pipeline.counted_of_received (client_run hr).1

/-- **Ticks arrive in order.** In every run of the system in which a read of full size starts where
a record starts, what the client has counted, with the tick it is about to count, are ticks of the
server, in the order of their generation and each at most once, across all reconnects; and the
`n`-th tick generated carries the number `n`. -/
theorem ticks_in_order (hr : ((system N M L).restrict Aligned).Run h s) :
    (LTS.seen Pipeline.counted (clientSteps h) ++ s.client.receive.decoded).Sublist
      (generated h) ∧ ∀ i md, (generated h)[i]? = some md → Ticked L i md := by
  have hv := served_run hr.of_restrict
  rw [counted_decoded hr.of_restrict]
  exact ⟨(aligned_run hr).sublist hv, hv.numbered⟩

/-- **Ticks are missed at reconnects only.** In every run in which a read gets a record or nothing,
what the client has counted, with the tick it is about to count, are blocks of consecutive ticks of
the server, at most one for each connection the client made. -/
theorem gaps_at_reconnects (hr : ((system N M L).restrict Whole).Run h s) :
    ∃ n a, n ≤ (LTS.seen clientConnects h).length ∧ a ≤ (generated h).length ∧
      Blocks (generated h) n a
        (LTS.seen Pipeline.counted (clientSteps h) ++ s.client.receive.decoded) := by
  have hv := served_run hr.of_restrict
  rw [counted_decoded hr.of_restrict]
  exact (whole_run hr).blocks hv

/-- **Orders are made of ticks of the server.** In every run in which a read of full size starts
where a record starts, the orders made so far are the first of those that `ticksToOrders` makes of
some of the ticks generated, in their order and each used at most once. If the sums of the server
were rounded so that no spread reached 0.05, each of them is justified by a tick of the server. -/
theorem orders_from_ticks (hr : ((system N M L).restrict Aligned).Run h s) :
    (∃ counter xs, (xs.map Prod.fst).Sublist (generated h) ∧
      LTS.seen Pipeline.orders (clientSteps h) <+:
        (Core.ticksToOrders counter xs).filterMap id) ∧
    ((∀ md ∈ generated h, md.ask - md.bid < 0.05) →
      ∀ o ∈ LTS.seen Pipeline.orders (clientSteps h), ∃ md ∈ generated h,
        Core.Justified md o) := by
  have hv := served_run hr.of_restrict
  have hrun := (client_run hr.of_restrict).1
  obtain ⟨counter, xs, hxs, horders⟩ := Pipeline.orders_of_ticks hrun
  obtain ⟨hreceive, -, -, hcarries, -⟩ := Pipeline.run_conserved hrun
  -- popped from the queue, pushed into it, counted, decoded, generated
  have hpushed : LTS.seen Pipeline.ticksPushed (clientSteps h) =
      LTS.seen Pipeline.ticksPopped (clientSteps h) ++ s.client.shared.marketDataQueue.items :=
    hcarries
  have hcounted : (LTS.seen Pipeline.ticksPopped (clientSteps h)).Sublist
      (LTS.seen Pipeline.counted (clientSteps h)) := by
    rw [hreceive.ticks, hpushed, List.append_assoc, List.append_assoc]
    exact List.sublist_append_left _ _
  have hdecoded : (LTS.seen Pipeline.counted (clientSteps h)).Sublist (decodedBy L h) := by
    rw [← counted_decoded hr.of_restrict]
    exact List.sublist_append_left _ _
  have hpopped := (hcounted.trans hdecoded).trans ((aligned_run hr).sublist hv)
  refine ⟨⟨counter, xs, hxs ▸ hpopped, horders⟩, fun htight o ho => ?_⟩
  obtain ⟨md, hmd, hjust⟩ := Pipeline.order_justified hrun
    (fun md hmd => htight md (hpopped.subset hmd)) ho
  exact ⟨md, hpopped.subset hmd, hjust⟩

/-! ## The run with a reconnect -/

/-- The ticks 0 and 2 arrive. -/
theorem ticks_in_order_reconnect :
    let r := reconnected Aligned
    (LTS.seen Pipeline.counted (clientSteps r.1)).map MarketData.seqNum = [0, 2] ∧
    (LTS.seen Pipeline.counted (clientSteps r.1) ++ r.2.client.receive.decoded).Sublist
      (generated r.1) ∧ ∀ i md, (generated r.1)[i]? = some md → Ticked Layout.cents i md := by
  intro r
  have hrun := reconnected_run (C := Aligned) (by decide +kernel)
  exact ⟨by decide +kernel, ticks_in_order hrun⟩

/-- They are two blocks, one for each connection. -/
theorem gaps_at_reconnects_reconnect :
    let r := reconnected Whole
    (LTS.seen clientConnects r.1).length = 2 ∧ (generated r.1).map MarketData.seqNum = [0, 1, 2] ∧
    ∃ n a, n ≤ (LTS.seen clientConnects r.1).length ∧ a ≤ (generated r.1).length ∧
      Blocks (generated r.1) n a
        (LTS.seen Pipeline.counted (clientSteps r.1) ++ r.2.client.receive.decoded) := by
  intro r
  have hrun := reconnected_run (C := Whole) (by decide +kernel)
  exact ⟨by decide +kernel, by decide +kernel, gaps_at_reconnects hrun⟩

/-- One order is made, and one of the ticks justifies it. -/
theorem orders_from_ticks_reconnect :
    let r := reconnected Aligned
    (LTS.seen Pipeline.orders (clientSteps r.1)).length = 1 ∧
    ∀ o ∈ LTS.seen Pipeline.orders (clientSteps r.1), ∃ md ∈ generated r.1,
      Core.Justified md o := by
  intro r
  have hrun := reconnected_run (C := Aligned) (by decide +kernel)
  exact ⟨by decide +kernel, (orders_from_ticks hrun).2 (by decide +kernel)⟩

end System

end Mms
