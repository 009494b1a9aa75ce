import Mms.App.Pipeline
import Mms.Lib.Framing

/-!
# Ticks and the segments of the stream

`work_server` sends the bytes of one `MarketData` after the other; TCP delivers them in segments of
its own choice. `receive_loop` decodes a result of `recv` that has the size of a `MarketData` and
discards every other one, and keeps nothing of what it discards.

* `counted_of_received`: in every run of the pipeline the ticks counted are, in order, the decodings
  of the results of full size.
* `framing_intact_iff`: on one connection these are the records of the server, each from the bytes
  of one record only, iff every result of full size starts where a record starts.
-/

namespace Mms

open Lib

/-- The tick `receive_loop` has decoded and not counted yet. -/
def ReceivePc.decoded : ReceivePc → List MarketData
  | .count md => [md]
  | _ => []

namespace Pipeline

variable {N M : ℕ} {decode : Packet → MarketData} {h : List Label} {p : Pipeline N M}

/-- The results of `recv`. -/
def received : Label → Option (Option (List UInt8))
  | .thread .network (.recv result) => some result
  | _ => none

/-- The tick a result is decoded to, if it has the right size. -/
def decodeChunk (decode : Packet → MarketData) (bytes : List UInt8) : Option MarketData :=
  if h : bytes.length = MarketData.size then some (decode ⟨bytes.toArray, h⟩) else none

theorem decodeChunk_toList (decode : Packet → MarketData) (r : Packet) :
    decodeChunk decode r.toList = some (decode r) := by
  have hlen : r.toList.length = MarketData.size := r.length_toList
  rw [decodeChunk, dif_pos hlen]
  rfl

/-- What `receive_loop` makes of the results so far. -/
def Decoded (decode : Packet → MarketData) (h : List Label) (pc : ReceivePc) : Prop :=
  LTS.seen counted h ++ pc.decoded =
    (LTS.seen received h).filterMap fun result => result.bind (decodeChunk decode)

/-- **Every step of `receive_loop`** decodes what it should. -/
theorem Decoded.network {s : Shared N M} {pc : ReceivePc} (hd : Decoded decode h pc)
    (env : Answers) :
    Decoded decode (.thread .network (receiveNext decode env pc s).1 :: h)
      (receiveNext decode env pc s).2.1 := by
  cases pc with
  | recv =>
    have hd' : LTS.seen counted h =
        (LTS.seen received h).filterMap fun result => result.bind (decodeChunk decode) := by
      rw [← hd]
      exact (List.append_nil _).symm
    simp only [receiveNext]
    split
    · unfold Decoded
      rw [LTS.seen_cons, LTS.seen_cons, List.filterMap_append, ← hd', List.append_assoc]
      rfl
    · rename_i bytes _
      unfold Decoded
      rw [LTS.seen_cons, LTS.seen_cons, List.filterMap_append, ← hd', List.append_assoc]
      congr 1
      by_cases hlen : bytes.length = MarketData.size
      · have hchunk : decodeChunk decode bytes = some (decode ⟨bytes.toArray, hlen⟩) :=
          dif_pos hlen
        simp [counted, received, ReceivePc.decoded, hlen, hchunk]
      · have hchunk : decodeChunk decode bytes = none := dif_neg hlen
        simp [counted, received, ReceivePc.decoded, hlen, hchunk]
  | count md =>
    -- the tick moves from the hands of the loop to the count
    have hcounted : LTS.seen counted (.thread .network (.counted md) :: h) =
        LTS.seen counted h ++ [md] := LTS.seen_cons _ _ _
    have hreceived : LTS.seen received (.thread .network (.counted md) :: h) =
        LTS.seen received h := (LTS.seen_cons _ _ _).trans (List.append_nil _)
    simp only [receiveNext]
    unfold Decoded
    rw [hcounted, hreceived, ← hd]
    exact List.append_nil _
  | test | client | retry n | retried | spinTest md | push md | spinPush md =>
    simp only [receiveNext]
    split
    all_goals exact hd
  | reconnect n =>
    simp only [receiveNext, MarketFeed.reconnect]
    split
    all_goals exact hd
  | giveUp | full md | exited => exact hd

/-- The results of full size are decoded and counted, in order; the latest one may still have to be
counted. -/
theorem counted_of_received (hrun : (pipeline N M decode).Run h p) :
    Decoded decode h p.receive := by
  refine LTS.Run.invariant (I := fun h p => Decoded decode h p.receive) (fun p h0 => ?_)
    (fun h p e p' _ hd hs => ?_) hrun
  · rw [h0.1]
    rfl
  · obtain ⟨m, hm⟩ := hs
    cases m with
    | thread role env =>
      cases role with
      | network =>
        simp only [next, Option.some.injEq, Prod.mk.injEq] at hm
        obtain ⟨rfl, rfl⟩ := hm
        exact hd.network env
      | strategy =>
        simp only [next, Option.some.injEq, Prod.mk.injEq] at hm
        obtain ⟨rfl, rfl⟩ := hm
        exact hd
      | execution =>
        simp only [next, Option.some.injEq, Prod.mk.injEq] at hm
        obtain ⟨rfl, rfl⟩ := hm
        exact hd
    | stop =>
      simp only [next, Option.some.injEq, Prod.mk.injEq] at hm
      obtain ⟨rfl, rfl⟩ := hm
      exact hd

/-! ## One connection -/

/-- The results of `recv` in `h` are the segments `chunks` of one connection, on which the server
sent the records `sent`. -/
structure OneConnection (sent : List Packet) (chunks : List (List UInt8)) (h : List Label) :
    Prop where
  results : LTS.seen received h = chunks.map some
  stream : chunks.flatten <+: (sent.map Vector.toList).flatten

/-- **Framing is intact**: what is decoded are records of the server, in sending order and each at
most once, every one of them from the bytes of that record only; and what is counted are these. -/
def Intact (decode : Packet → MarketData) (sent : List Packet) (chunks : List (List UInt8))
    (h : List Label) : Prop :=
  ∃ ks : List ℕ, ks.Pairwise (· < ·) ∧
    List.Forall₂ (FromRecord MarketData.size (sent.map Vector.toList)) ks
      (frames MarketData.size 0 chunks) ∧
    LTS.seen counted h <+: ks.filterMap fun k => (sent[k]?).map decode

/-- What is decoded from the segments, by the frames among them. -/
theorem filterMap_decodeChunk (chunks : List (List UInt8)) :
    chunks.filterMap (decodeChunk decode) =
      (frames MarketData.size 0 chunks).filterMap fun f => decodeChunk decode f.bytes := by
  have hbytes := congrArg (List.filterMap (decodeChunk decode))
    (map_bytes_frames MarketData.size 0 chunks)
  rw [List.filterMap_map, List.filterMap_filter] at hbytes
  refine Eq.trans (List.filterMap_congr fun c _ => ?_) hbytes.symm
  unfold decodeChunk
  split <;> simp_all

/-- Frames that are records decode to the records. -/
theorem decoded_of_records {sent : List Packet} {ks : List ℕ} {fs : List (Frame UInt8)}
    (hf : List.Forall₂ (FromRecord MarketData.size (sent.map Vector.toList)) ks fs) :
    ks.filterMap (fun k => (sent[k]?).map decode) =
      fs.filterMap fun f => decodeChunk decode f.bytes := by
  induction hf with
  | nil => rfl
  | @cons k f ks fs hkf _ ih =>
    obtain ⟨r, hr, hbytes⟩ : ∃ r, sent[k]? = some r ∧ r.toList = f.bytes := by
      have hc := hkf.content
      rwa [List.getElem?_map, Option.map_eq_some_iff] at hc
    have h1 : (sent[k]?).map decode = some (decode r) := by rw [hr, Option.map_some]
    have h2 : decodeChunk decode f.bytes = some (decode r) := by
      rw [← hbytes, decodeChunk_toList]
    simp only [List.filterMap_cons, h1, h2, ih]

/-- **When framing survives segmentation.** In every run of the pipeline whose results of `recv`
come from one connection, framing is intact iff every result of the size of a `MarketData` starts a
whole number of records into the stream. -/
theorem framing_intact_iff (hrun : (pipeline N M decode).Run h p) {sent : List Packet}
    {chunks : List (List UInt8)} (hone : OneConnection sent chunks h) :
    Intact decode sent chunks h ↔ Aligned MarketData.size chunks := by
  have hsize : ∀ r ∈ sent.map Vector.toList, r.length = MarketData.size := by
    intro r hr
    obtain ⟨v, -, rfl⟩ := List.mem_map.mp hr
    exact v.length_toList
  rw [← frames_from_records_iff (by decide) hsize hone.stream]
  constructor
  · rintro ⟨ks, hks, hf, -⟩
    exact ⟨ks, hks, hf⟩
  · rintro ⟨ks, hks, hf⟩
    refine ⟨ks, hks, hf, ?_⟩
    have hcounted := counted_of_received hrun
    have hchunks : (chunks.map some).filterMap (fun result => result.bind (decodeChunk decode)) =
        chunks.filterMap (decodeChunk decode) := by
      rw [List.filterMap_map]
      rfl
    unfold Decoded at hcounted
    rw [hone.results, hchunks, filterMap_decodeChunk, ← decoded_of_records hf] at hcounted
    exact ⟨_, hcounted⟩

/-- Two records that arrive whole. -/
theorem framing_intact_iff_whole :
    let decode : Packet → MarketData := fun b => ⟨b[0].toUInt64, 0, 0, 0, Vector.replicate 8 0⟩
    let sent : List Packet := [Vector.replicate 40 1, Vector.replicate 40 2]
    let chunks := [List.replicate 40 1, List.replicate 40 2]
    let p0 : Pipeline 2 2 := ⟨.test, .test, .test,
      ⟨true, Fifo.empty, Fifo.empty, ⟨true, true, 0, 0⟩, 0, 0, 1⟩⟩
    let gets bytes : Move := .thread .network
      ⟨some bytes, true, ⟨Vector.replicate 8 0, .hold, 0, 0, 0⟩, 0⟩
    let moves := chunks.flatMap fun c => List.replicate 5 (gets c)
    let r := (LTS.exec (next decode) moves ([], p0)).getD ([], p0)
    LTS.seen counted r.1 = sent.map decode ∧
      (Intact decode sent chunks r.1 ↔ Aligned MarketData.size chunks) := by
  intro decode sent chunks p0 gets moves r
  have he : LTS.exec (next decode) moves ([], p0) = some r := LTS.exec_getD (by decide +kernel)
  have hrun : (pipeline 2 2 decode).Run r.1 r.2 :=
    LTS.Run.exec (.start ⟨rfl, rfl, rfl, rfl, rfl, rfl, rfl, rfl⟩) he
  have hone : OneConnection sent chunks r.1 := ⟨by decide +kernel, [], by decide⟩
  exact ⟨by decide +kernel, framing_intact_iff hrun hone⟩

/-- **A short read shifts the frame.** The server sends two records; the first read returns 20 bytes
and is discarded, the second one returns 40: half of the first record and half of the second. What
is counted is neither of them. -/
theorem short_read_mixes_records :
    let decode : Packet → MarketData := fun b =>
      ⟨UInt64.ofNat (256 * b[0].toNat + b[39].toNat), 0, 0, 0, Vector.replicate 8 0⟩
    let sent : List Packet := [Vector.replicate 40 1, Vector.replicate 40 2]
    let chunks := [List.replicate 20 1, List.replicate 20 1 ++ List.replicate 20 2]
    let p0 : Pipeline 2 2 := ⟨.test, .test, .test,
      ⟨true, Fifo.empty, Fifo.empty, ⟨true, true, 0, 0⟩, 0, 0, 1⟩⟩
    let gets bytes : Move := .thread .network
      ⟨some bytes, true, ⟨Vector.replicate 8 0, .hold, 0, 0, 0⟩, 0⟩
    let moves := List.replicate 3 (gets (List.replicate 20 1)) ++
      List.replicate 4 (gets (List.replicate 20 1 ++ List.replicate 20 2))
    ∃ h p, (pipeline 2 2 decode).Run h p ∧ p0.shared.feed.tcpClient = true ∧
      LTS.exec (next decode) moves ([], p0) = some (h, p) ∧ OneConnection sent chunks h ∧
      (LTS.seen counted h).map MarketData.seqNum = [258] ∧
      sent.map (fun r => (decode r).seqNum) = [257, 514] ∧ ¬ Intact decode sent chunks h := by
  intro decode sent chunks p0 gets moves
  let r := (LTS.exec (next decode) moves ([], p0)).getD ([], p0)
  have he : LTS.exec (next decode) moves ([], p0) = some r := LTS.exec_getD (by decide +kernel)
  have hcounted : (LTS.seen counted r.1).map MarketData.seqNum = [258] := by decide +kernel
  have hsent : sent.map (fun r => (decode r).seqNum) = [257, 514] := by decide +kernel
  refine ⟨r.1, r.2, LTS.Run.exec (.start ⟨rfl, rfl, rfl, rfl, rfl, rfl, rfl, rfl⟩) he, rfl, he,
    ⟨by decide +kernel, List.replicate 20 2, by decide⟩, hcounted, hsent, ?_⟩
  rintro ⟨ks, -, -, hpre⟩
  -- the counted tick would be the decoding of a record that was sent
  have hmem : (258 : UInt64) ∈ (LTS.seen counted r.1).map MarketData.seqNum := by
    rw [hcounted]
    exact List.mem_singleton.mpr rfl
  obtain ⟨md, hmd, hseq⟩ := List.mem_map.mp hmem
  obtain ⟨k, -, hk⟩ := List.mem_filterMap.mp (hpre.subset hmd)
  obtain ⟨v, hv, rfl⟩ := Option.map_eq_some_iff.mp hk
  have hin : (258 : UInt64) ∈ sent.map fun r => (decode r).seqNum := by
    rw [← hseq]
    exact List.mem_map_of_mem (List.mem_of_getElem? hv)
  rw [hsent] at hin
  exact absurd hin (by decide)

end Pipeline

end Mms
