/-
# Replaying a file

`replay` walks a mapped ITCH file, gathers messages into batches and sends each batch
as one packet. It keeps its own account of how full a packet is and leaves the writing
to the packet builder, which checks the room again. Behind the last batch it sends a
packet without messages whose count is patched to mark the end of the session.

On a file of complete messages that fit into a packet the two accounts agree: the
packets carry the messages of the file, all of them and in order, under sequence
numbers that follow each other from one.

Pacing and progress reports are left out. Whether a call of `sendto` succeeds is an
input.
-/

import Orderbook.Feed.FileWalker

namespace Orderbook

open Orderbook.Math

/-- `sizeof(packet)`. -/
def sizeofPacket : ℕ := 2048

/-- The entries of `batchPtrs` and `batchLens`. -/
def batchSlots : ℕ := 256

/-- The locals of the loop that gathers a batch. A pointer into the file is its
offset. -/
structure Batching where
  data : ℕ
  batchCount : UInt16 := 0
  packetUsed : UInt16 := 20
  batchPtrs : ℕ → ℕ
  batchLens : ℕ → UInt16

/-- Put the message at `data` into the batch. -/
def Batching.put (loop : Batching) (mlen : UInt16) : Batching where
  data := loop.data + (2 + mlen.toNat)
  batchCount := loop.batchCount + 1
  packetUsed := loop.packetUsed + (2 + mlen)
  batchPtrs i := if i = loop.batchCount.toNat then loop.data + 2 else loop.batchPtrs i
  batchLens i := if i = loop.batchCount.toNat then mlen else loop.batchLens i

/-- One turn of the loop that gathers a batch. A write behind the arrays has no defined
result. -/
def gatherTurn (mapped : MappedFile) (maxPerPacket : UInt16) (loop : Batching) :
    Option (Batching ⊕ Batching) :=
  if loop.data < mapped.fileSize ∧ loop.batchCount < maxPerPacket then
    let mlen := mapped.messageLength loop.data
    if loop.packetUsed.toNat + 2 + mlen.toNat > sizeofPacket then some (.inr loop)
    else if loop.batchCount.toNat < batchSlots then some (.inl (loop.put mlen))
    else none
  else some (.inr loop)

/-- Gather a batch. -/
def gather (mapped : MappedFile) (maxPerPacket : UInt16) (loop : Batching) : Option Batching :=
  iterate (gatherTurn mapped maxPerPacket) loop

/-- The session name. -/
def replaySession : Vector UInt8 10 :=
  #v['O'.toUInt8, 'R'.toUInt8, 'D'.toUInt8, 'B'.toUInt8, 'K'.toUInt8, 'S'.toUInt8, 'E'.toUInt8,
    'S'.toUInt8, '1'.toUInt8, 0]

/-- The locals of the outer loop, the calls of `sendto` made and the datagrams sent. The
buffers start with whatever the stack holds. -/
structure Replay where
  data : ℕ := 0
  seq : UInt64 := 1
  packet : Memory
  batchPtrs : ℕ → ℕ
  batchLens : ℕ → UInt16
  calls : ℕ := 0
  sent : List (List UInt8) := []

/-- The loop that gathers a batch at its start. -/
def Replay.batchStart (state : Replay) : Batching where
  data := state.data
  batchPtrs := state.batchPtrs
  batchLens := state.batchLens

/-- The packet built from a batch. -/
def Replay.build (state : Replay) (mapped : MappedFile) (loop : Batching) : ℕ × Memory :=
  buildMoldPacket state.packet sizeofPacket replaySession state.seq
    (fun i => mapped.file.advance (loop.batchPtrs i)) loop.batchLens loop.batchCount

/-- One turn of the outer loop: gather a batch, build its packet and send it. Behind the
loop only the sequence number and the packet buffer are read. -/
def replayTurn (mapped : MappedFile) (maxPerPacket : UInt16) (sendto : ℕ → Bool)
    (state : Replay) : Option (Replay ⊕ Replay) :=
  if state.data < mapped.fileSize then
    (gather mapped maxPerPacket state.batchStart).map fun loop =>
      if loop.batchCount = 0 then .inr state
      else
        let (pktBytes, packet) := state.build mapped loop
        if pktBytes = 0 then .inr { state with packet }
        else if sendto state.calls then
          .inl
            { data := loop.data
              seq := state.seq + loop.batchCount.toUInt64
              packet
              batchPtrs := loop.batchPtrs
              batchLens := loop.batchLens
              calls := state.calls + 1
              sent := state.sent ++ [packet.slice 0 pktBytes] }
        else .inr { state with packet, calls := state.calls + 1 }
  else some (.inr state)

/-- The end-of-session packet: a packet without messages whose count is patched. -/
def Replay.buildEos (state : Replay) : List UInt8 :=
  let (eosBytes, packet) :=
    buildMoldPacket state.packet sizeofPacket replaySession state.seq (fun _ _ => 0) (fun _ => 0) 0
  (packet.store 18 (hostBytes16 (htons kMoldEndOfSession))).slice 0 eosBytes

/-- The datagrams that `replay` sends for a file. -/
def replay (mapped : MappedFile) (maxPerPacket : UInt16) (sendto : ℕ → Bool) (start : Replay) :
    Option (List (List UInt8)) :=
  (iterate (replayTurn mapped maxPerPacket sendto) start).map fun state =>
    if sendto state.calls then state.sent ++ [state.buildEos] else state.sent

namespace Batching

variable {mapped : MappedFile} {maxPerPacket : UInt16} {loop : Batching} {taken : List Payload}

/-- The messages of a batch, and what the loop says about their number and size. -/
structure Gathered (mapped : MappedFile) (loop : Batching) (taken : List Payload) : Prop where
  count : loop.batchCount.toNat = taken.length
  used : loop.packetUsed.toNat = kMoldHeaderBytes + (Payload.framing.encodeAll taken).length
  fits : loop.packetUsed.toNat ≤ sizeofPacket
  messages : batch (fun i => mapped.file.advance (loop.batchPtrs i)) loop.batchLens
    (List.range taken.length) = taken

/-- The account of the packet grows by the message and its length field, without a wrap. -/
theorem toNat_packetUsed_put {mlen : UInt16}
    (hroom : loop.packetUsed.toNat + 2 + mlen.toNat ≤ sizeofPacket) :
    (loop.put mlen).packetUsed.toNat = loop.packetUsed.toNat + 2 + mlen.toNat := by
  have hsmall : sizeofPacket < 2 ^ 16 := by decide
  have htwo : (2 + mlen).toNat = 2 + mlen.toNat := by
    rw [UInt16.toNat_add]
    exact Nat.mod_eq_of_lt (by change 2 + _ < 2 ^ 16; omega)
  change (loop.packetUsed + (2 + mlen)).toNat = _
  rw [UInt16.toNat_add, htwo, ← Nat.add_assoc]
  exact Nat.mod_eq_of_lt (by omega)

/-- A message that fits is put behind the others. -/
theorem Gathered.put (hgathered : loop.Gathered mapped taken) {record : Payload}
    (hrecord : mapped.HasRecord loop.data record) (hless : loop.batchCount < maxPerPacket)
    (hroom : loop.packetUsed.toNat + 2 + record.length.toNat ≤ sizeofPacket) :
    (loop.put record.length).Gathered mapped (taken ++ [record]) := by
  have hcount : (loop.batchCount + 1).toNat = loop.batchCount.toNat + 1 := by
    have hmax := maxPerPacket.toNat_lt
    have hbelow := UInt16.lt_iff_toNat_lt.mp hless
    rw [UInt16.toNat_add]
    exact Nat.mod_eq_of_lt (by change _ + 1 < 2 ^ 16; omega)
  have hused := toNat_packetUsed_put hroom
  constructor
  · rw [List.length_append, List.length_singleton, ← hgathered.count]
    exact hcount
  · rw [Framing.encodeAll_append, List.length_append, Framing.encodeAll_cons,
      Framing.encodeAll_nil, List.append_nil, Payload.framing_encode, Payload.length_encode,
      ← Payload.toNat_length, ← Nat.add_assoc, ← hgathered.used, ← Nat.add_assoc]
    exact hused
  · exact hused.trans_le hroom
  · rw [List.length_append, List.length_singleton, List.range_succ, batch, List.map_append,
      List.map_singleton]
    congr 1
    · refine (List.map_congr_left fun i hi => ?_).trans hgathered.messages
      have hne : i ≠ loop.batchCount.toNat := by
        rw [hgathered.count]
        exact Nat.ne_of_lt (List.mem_range.mp hi)
      simp only [Batching.put, if_neg hne]
    · simp only [Batching.put, if_pos hgathered.count.symm, Payload.ofMemory_advance,
        hrecord.payload]

/-- A batch that is done, with the messages behind it: it has all messages allowed, or
the next one does not fit. -/
structure Finished (mapped : MappedFile) (maxPerPacket : UInt16) (taken later : List Payload)
    (loop : Batching) : Prop extends loop.Gathered mapped taken where
  rest : mapped.rest loop.data = Payload.framing.encodeAll later
  within : loop.batchCount ≤ maxPerPacket
  full : loop.batchCount < maxPerPacket → ∀ record ∈ later.head?,
    sizeofPacket < loop.packetUsed.toNat + 2 + record.length.toNat

/-- The loop takes messages off the front of the file until the batch is done. -/
theorem gather_eq {records : List Payload} (hslots : maxPerPacket.toNat ≤ batchSlots)
    (hgathered : loop.Gathered mapped taken)
    (hrest : mapped.rest loop.data = Payload.framing.encodeAll records)
    (hwithin : loop.batchCount ≤ maxPerPacket) :
    ∃ more later last, records = more ++ later ∧ gather mapped maxPerPacket loop = some last ∧
      last.Finished mapped maxPerPacket (taken ++ more) later := by
  induction records generalizing loop taken with
  | nil =>
      refine ⟨[], [], loop, rfl, iterate_of_leave ?_, ?_⟩
      · exact if_neg fun hmore => absurd hmore.1 (Nat.not_lt.mpr (MappedFile.le_of_rest_nil hrest))
      · rw [List.append_nil]
        exact ⟨hgathered, hrest, hwithin, fun _ _ hnone => nomatch hnone⟩
  | cons record records ih =>
      obtain ⟨hrecord, hbehind⟩ := MappedFile.hasRecord_of_rest hrest
      by_cases hless : loop.batchCount < maxPerPacket
      · rcases Nat.lt_or_ge sizeofPacket (loop.packetUsed.toNat + 2 + record.length.toNat)
          with hfull | hroom
        · refine ⟨[], record :: records, loop, rfl, iterate_of_leave ?_, ?_⟩
          · rw [gatherTurn, if_pos ⟨hrecord.lt_fileSize, hless⟩, hrecord.length]
            exact if_pos hfull
          · rw [List.append_nil]
            refine ⟨hgathered, hrest, hwithin, fun _ next hnext => ?_⟩
            cases hnext
            exact hfull
        · have hput := hgathered.put hrecord hless hroom
          have hturn : gatherTurn mapped maxPerPacket loop =
              some (.inl (loop.put record.length)) := by
            rw [gatherTurn, if_pos ⟨hrecord.lt_fileSize, hless⟩, hrecord.length]
            refine (if_neg (Nat.not_lt.mpr hroom)).trans (if_pos ?_)
            exact (UInt16.lt_iff_toNat_lt.mp hless).trans_le hslots
          have hcount : (loop.put record.length).batchCount ≤ maxPerPacket := by
            rw [UInt16.le_iff_toNat_le, hput.count, List.length_append, ← hgathered.count]
            exact UInt16.lt_iff_toNat_lt.mp hless
          rw [Nat.add_assoc] at hbehind
          obtain ⟨more, later, last, rfl, hgather, hlast⟩ := ih hput hbehind hcount
          refine ⟨record :: more, later, last, rfl, (iterate_of_continue hturn).trans hgather, ?_⟩
          rw [List.append_assoc] at hlast
          exact hlast
      · refine ⟨[], record :: records, loop, rfl, iterate_of_leave ?_, ?_⟩
        · exact if_neg fun hmore => hless hmore.2
        · rw [List.append_nil]
          exact ⟨hgathered, hrest, hwithin, fun hmore => absurd hmore hless⟩

end Batching

/-- The packet that carries a batch. -/
def packetOf (seq : UInt64) (records : List Payload) : List UInt8 :=
  MoldHeader.wire ⟨replaySession, seq, UInt16.ofNat records.length⟩ ++
    Payload.framing.encodeAll records

/-- The packet that ends the session. -/
def eosPacket (seq : UInt64) : List UInt8 :=
  MoldHeader.wire ⟨replaySession, seq, kMoldEndOfSession⟩

/-- The packets that carry batches under consecutive sequence numbers. -/
def packetsFrom : UInt64 → List (List Payload) → List (List UInt8)
  | _, [] => []
  | seq, records :: batches =>
      packetOf seq records :: packetsFrom (seq + UInt64.ofNat records.length) batches

/-- A batch as it is sent. -/
structure Sendable (maxPerPacket : UInt16) (records : List Payload) : Prop where
  nonempty : records ≠ []
  within : records.length ≤ maxPerPacket.toNat
  fits : kMoldHeaderBytes + (Payload.framing.encodeAll records).length ≤ sizeofPacket

theorem length_packetOf (seq : UInt64) (records : List Payload) :
    (packetOf seq records).length =
      kMoldHeaderBytes + (Payload.framing.encodeAll records).length := by
  rw [packetOf, List.length_append, MoldHeader.length_wire]

variable {mapped : MappedFile} {maxPerPacket : UInt16} {sendto : ℕ → Bool}

/-- The builder agrees with the loop about the size of the packet. -/
theorem Batching.Gathered.build {loop : Batching} {taken : List Payload}
    (hgathered : loop.Gathered mapped taken) (state : Replay) :
    state.build mapped loop =
      ((packetOf state.seq taken).length, state.packet.store 0 (packetOf state.seq taken)) := by
  have hcount : UInt16.ofNat taken.length = loop.batchCount := by
    rw [← hgathered.count, UInt16.ofNat_toNat]
  have hfits := hgathered.fits
  rw [hgathered.used] at hfits
  have hmessages := hgathered.messages
  rw [← hgathered.count] at hmessages
  have hbuilt := buildMoldPacket_of_le (fun i => mapped.file.advance (loop.batchPtrs i))
    loop.batchLens state.packet sizeofPacket replaySession state.seq loop.batchCount
    (by rw [hmessages]; exact hfits)
  rw [hmessages] at hbuilt
  rw [Replay.build, hbuilt, length_packetOf, packetOf, hcount]

/-- A batch that is done has a message when there is one that fits. -/
theorem Batching.Finished.ne_nil {loop : Batching} {taken later : List Payload}
    (hfinished : loop.Finished mapped maxPerPacket taken later) (hmax : 0 < maxPerPacket.toNat)
    {record : Payload} (hhead : (taken ++ later).head? = some record)
    (hshort : record.bytes.length ≤ 2026) : taken ≠ [] := by
  rintro rfl
  have hcount : loop.batchCount.toNat = 0 := hfinished.count
  have hused : loop.packetUsed.toNat = 20 := hfinished.used
  have hfull := hfinished.full (UInt16.lt_iff_toNat_lt.mpr (hcount ▸ hmax)) record hhead
  rw [hused, Payload.toNat_length] at hfull
  change 2048 < _ at hfull
  omega

/-- The state behind a batch that was sent. -/
def Replay.after (state : Replay) (loop : Batching) (taken : List Payload) : Replay where
  data := loop.data
  seq := state.seq + loop.batchCount.toUInt64
  packet := state.packet.store 0 (packetOf state.seq taken)
  batchPtrs := loop.batchPtrs
  batchLens := loop.batchLens
  calls := state.calls + 1
  sent := state.sent ++ [packetOf state.seq taken]

/-- A batch that is not empty is sent, and the outer loop goes on behind it. -/
theorem replayTurn_of_gather (sendto : ℕ → Bool) {state : Replay} {loop : Batching}
    {taken : List Payload} (hdata : state.data < mapped.fileSize)
    (hgather : gather mapped maxPerPacket state.batchStart = some loop)
    (hgathered : loop.Gathered mapped taken) (hne : taken ≠ [])
    (hsendto : sendto state.calls = true) :
    replayTurn mapped maxPerPacket sendto state = some (.inl (state.after loop taken)) := by
  have hcount : loop.batchCount ≠ 0 := by
    intro hzero
    have hlength := hgathered.count
    rw [hzero] at hlength
    exact hne (List.length_eq_zero_iff.mp hlength.symm)
  have hsize : (packetOf state.seq taken).length ≠ 0 := by
    rw [length_packetOf]
    exact Nat.ne_of_gt (Nat.add_pos_left (by decide) _)
  rw [replayTurn, if_pos hdata, hgather, Option.map_some, if_neg hcount, hgathered.build state]
  dsimp only
  rw [if_neg hsize, if_pos hsendto, Memory.slice_store]
  rfl

/-- What one turn of the outer loop sends of a file with messages left. -/
structure Replay.Sends (mapped : MappedFile) (state next : Replay) (records later : List Payload) :
    Prop where
  rest : mapped.rest next.data = Payload.framing.encodeAll later
  seq : next.seq = state.seq + UInt64.ofNat records.length
  sent : next.sent = state.sent ++ [packetOf state.seq records]

/-- With room for one message, every turn sends a batch. -/
theorem replayTurn_eq (hmax : 0 < maxPerPacket.toNat) (hslots : maxPerPacket.toNat ≤ batchSlots)
    (hsendto : ∀ call, sendto call = true) {state : Replay} {record : Payload}
    {records : List Payload}
    (hrest : mapped.rest state.data = Payload.framing.encodeAll (record :: records))
    (hshort : record.bytes.length ≤ 2026) :
    ∃ batch later next, record :: records = batch ++ later ∧ Sendable maxPerPacket batch ∧
      replayTurn mapped maxPerPacket sendto state = some (.inl next) ∧
      state.Sends mapped next batch later := by
  have hempty : Batching.Gathered mapped state.batchStart [] :=
    ⟨rfl, rfl, show 20 ≤ 2048 by decide, rfl⟩
  obtain ⟨batch, later, loop, hsplit, hgather, hfinished⟩ :=
    Batching.gather_eq hslots hempty hrest (UInt16.le_iff_toNat_le.mpr (Nat.zero_le _))
  rw [List.nil_append] at hfinished
  have hne : batch ≠ [] :=
    hfinished.ne_nil hmax (by rw [← hsplit]; rfl) hshort
  have hsendable : Sendable maxPerPacket batch := by
    refine ⟨hne, ?_, ?_⟩
    · rw [← hfinished.count]
      exact UInt16.le_iff_toNat_le.mp hfinished.within
    · rw [← hfinished.used]
      exact hfinished.fits
  refine ⟨batch, later, state.after loop batch, hsplit, hsendable, ?_, hfinished.rest, ?_, rfl⟩
  · exact replayTurn_of_gather sendto (MappedFile.hasRecord_of_rest hrest).1.lt_fileSize hgather
      hfinished.toGathered hne (hsendto _)
  · rw [← hfinished.count]
    exact congrArg (state.seq + ·) (UInt64.ofNat_uInt16ToNat _).symm

theorem seq_add_add (seq : UInt64) (first second : ℕ) :
    seq + UInt64.ofNat first + UInt64.ofNat second = seq + UInt64.ofNat (first + second) := by
  rw [UInt64.ofNat_add, UInt64.add_assoc]

/-- The outer loop sends the messages of the file in batches. -/
theorem iterate_replayTurn (hmax : 0 < maxPerPacket.toNat)
    (hslots : maxPerPacket.toNat ≤ batchSlots) (hsendto : ∀ call, sendto call = true)
    {records : List Payload} (hshort : ∀ record ∈ records, record.bytes.length ≤ 2026)
    {state : Replay} (hrest : mapped.rest state.data = Payload.framing.encodeAll records) :
    ∃ batches last, batches.flatten = records ∧ (∀ batch ∈ batches, Sendable maxPerPacket batch) ∧
      iterate (replayTurn mapped maxPerPacket sendto) state = some last ∧
      last.seq = state.seq + UInt64.ofNat records.length ∧
      last.sent = state.sent ++ packetsFrom state.seq batches := by
  induction hleft : records.length using Nat.strong_induction_on generalizing records state with
  | h left ih =>
      cases records with
      | nil =>
          refine ⟨[], state, rfl, fun _ hnone => (nomatch hnone), iterate_of_leave ?_, ?_, ?_⟩
          · exact if_neg (Nat.not_lt.mpr (MappedFile.le_of_rest_nil hrest))
          · rw [← hleft]
            exact (UInt64.add_zero _).symm
          · exact (List.append_nil _).symm
      | cons record records =>
          obtain ⟨batch, later, next, hsplit, hsendable, hturn, hsends⟩ :=
            replayTurn_eq hmax hslots hsendto hrest (hshort record List.mem_cons_self)
          have hlength : (record :: records).length = batch.length + later.length := by
            rw [hsplit, List.length_append]
          have hpositive := List.length_pos_of_ne_nil hsendable.nonempty
          rw [hsplit] at hshort
          obtain ⟨batches, last, hflatten, hall, hloop, hseq, hsent⟩ :=
            ih later.length (by omega)
              (fun record hrecord => hshort record (List.mem_append_right batch hrecord))
              hsends.rest rfl
          refine ⟨batch :: batches, last, ?_, ?_, ?_, ?_, ?_⟩
          · rw [List.flatten_cons, hflatten, hsplit]
          · exact List.forall_mem_cons.mpr ⟨hsendable, hall⟩
          · rw [iterate_of_continue hturn, hloop]
          · rw [hseq, hsends.seq, seq_add_add, ← hlength, hleft]
          · rw [hsent, hsends.sent, hsends.seq, packetsFrom, List.append_assoc,
              List.singleton_append]

/-- Patching the count of a header gives the header with that count. -/
theorem store_count (out : Memory) (session : Vector UInt8 10) (seq : UInt64)
    (count patched : UInt16) :
    (out.store 0 (MoldHeader.wire ⟨session, seq, count⟩)).store 18 (wire16 patched) =
      out.store 0 (MoldHeader.wire ⟨session, seq, patched⟩) := by
  have hsplit : ∀ value, MoldHeader.wire ⟨session, seq, value⟩ =
      (session.toList ++ wireRef seq) ++ wire16 value :=
    fun _ => (List.append_assoc _ _ _).symm
  have hfront : (session.toList ++ wireRef seq).length = 18 := by
    rw [List.length_append, session.length_toList]
    rfl
  have hstore : ∀ value, out.store 0 ((session.toList ++ wireRef seq) ++ wire16 value) =
      (out.store 0 (session.toList ++ wireRef seq)).store 18 (wire16 value) := by
    intro value
    rw [← Memory.store_store, hfront, Nat.zero_add]
  rw [hsplit, hsplit, hstore, hstore]
  exact Memory.store_store_of_length_eq _ 18 rfl

/-- The patched packet is the packet that ends the session. -/
theorem Replay.buildEos_eq (state : Replay) : state.buildEos = eosPacket state.seq := by
  have hbuilt := buildMoldPacket_of_le (fun _ _ => 0) (fun _ => 0) state.packet sizeofPacket
    replaySession state.seq 0 (by decide)
  have hnone : batch (fun _ _ => 0) (fun _ => 0) (List.range (0 : UInt16).toNat) = [] := rfl
  rw [hnone, Framing.encodeAll_nil, List.append_nil, List.length_nil, Nat.add_zero] at hbuilt
  rw [Replay.buildEos, hbuilt]
  dsimp only
  rw [hostBytes16_htons, store_count, ← MoldHeader.length_wire]
  exact Memory.slice_store _ _ _

/-- A file of complete messages is sent in packets that carry its messages, and then the
session ends. -/
theorem replay_eq {records : List Payload} (hmax : 0 < maxPerPacket.toNat)
    (hslots : maxPerPacket.toNat ≤ batchSlots) (hsendto : ∀ call, sendto call = true)
    (hholds : mapped.Holds records) (hshort : ∀ record ∈ records, record.bytes.length ≤ 2026)
    (packet : Memory) (batchPtrs : ℕ → ℕ) (batchLens : ℕ → UInt16) :
    ∃ batches, batches.flatten = records ∧ (∀ batch ∈ batches, Sendable maxPerPacket batch) ∧
      replay mapped maxPerPacket sendto { packet, batchPtrs, batchLens } =
        some (packetsFrom 1 batches ++ [eosPacket (1 + UInt64.ofNat records.length)]) := by
  obtain ⟨batches, last, hflatten, hall, hloop, hseq, hsent⟩ :=
    iterate_replayTurn hmax hslots hsendto hshort
      (show mapped.rest (Replay.mk 0 1 packet batchPtrs batchLens 0 []).data = _ from hholds)
  refine ⟨batches, hflatten, hall, ?_⟩
  rw [replay, hloop, Option.map_some, if_pos (hsendto _), last.buildEos_eq, hseq, hsent,
    List.nil_append]

end Orderbook
