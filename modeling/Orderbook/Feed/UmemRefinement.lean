/-
# Every frame has one owner

A frame is in the fill ring, with the kernel, in the receive ring, in a batch that was released
and not yet handed back, or lost. As long as the session goes on every frame is in one of these
places and in no other. So the frames that the handler looks at are not written to, and a run on
the area is a run of the pipeline in which a batch is a list of byte strings.

A frame is lost when the reservation gives less than was asked for: the addresses of a batch are
kept nowhere else, and the next batch overwrites them. There is always room for the whole batch,
so a reservation that gives what there is loses nothing.

When the session ends in the middle of a batch, the addresses behind the last frame that was
looked at are those of an earlier batch. They are handed back all the same, and then nothing is
said about the frames; the handler does not look at them any more.
-/

import Orderbook.Feed.Ownership
import Orderbook.Feed.Umem

namespace Orderbook

open Orderbook.Math

/-- The session goes on. -/
def XdpPc.Live : XdpPc → Prop
  | testing done => done = false
  | releasingRx _ done => done = false
  | refilling _ done => done = false
  | finished => False
  | _ => True

namespace Umem

/-- The first `count` addresses of the batch are saved. -/
def Saved (umem : Umem) (batchAddrs : ℕ → ℕ) (count : ℕ) : Prop :=
  count ≤ umem.rx.length ∧
    (List.range count).map batchAddrs = (umem.rx.take count).map XdpDesc.addr

/-- A packet lies in a frame of the receive ring. -/
def Waiting (umem : Umem) (desc : XdpDesc) : Prop :=
  desc.Inside ∧ ∃ other ∈ umem.rx, frameOf desc.addr = frameOf other.addr

end Umem

/-- What the handler has of the batch. -/
def XdpPc.Has (umem : Umem) (batchAddrs : ℕ → ℕ) : XdpPc → Prop
  | scanning _ rcvd i => i ≤ rcvd ∧ rcvd ≤ umem.rx.length ∧ umem.Saved batchAddrs i
  | claiming _ rcvd i moldPkt =>
      i < rcvd ∧ rcvd ≤ umem.rx.length ∧ umem.Saved batchAddrs (i + 1) ∧ umem.Waiting moldPkt
  | copying _ _ rcvd i moldPkt =>
      i < rcvd ∧ rcvd ≤ umem.rx.length ∧ umem.Saved batchAddrs (i + 1) ∧ umem.Waiting moldPkt
  | pushing _ rcvd i => i < rcvd ∧ rcvd ≤ umem.rx.length ∧ umem.Saved batchAddrs (i + 1)
  | releasing _ _ rcvd i => i < rcvd ∧ rcvd ≤ umem.rx.length ∧ umem.Saved batchAddrs (i + 1)
  | releasingRx rcvd _ => umem.Saved batchAddrs rcvd
  | _ => True

namespace XdpPipeline

/-- The frames of a batch that was released. -/
def batch (state : XdpPipeline) : List ℕ :=
  match state.handler with
  | .refilling rcvd _ => (List.range rcvd).map (frameOf ∘ state.batchAddrs)
  | _ => []

/-- The frames of all places. -/
def frames (state : XdpPipeline) : List ℕ :=
  state.umem.fill.map frameOf ++ (state.umem.kernel ++
    (state.umem.rx.map (frameOf ∘ XdpDesc.addr) ++ (state.batch ++ state.lost)))

/-- Every frame is in one place, and the handler has what it works on. -/
structure Owned (numFrames : ℕ) (state : XdpPipeline) : Prop where
  frames : state.frames.Perm (List.range numFrames)
  inside : ∀ desc ∈ state.umem.rx, desc.Inside
  has : state.handler.Has state.umem state.batchAddrs

end XdpPipeline

/-- What the handler has it keeps when descriptors are added behind. -/
theorem XdpPc.Has.front {pc : XdpPc} {umem next : Umem} {batchAddrs : ℕ → ℕ}
    (hhas : pc.Has umem batchAddrs) (hfront : umem.rx <+: next.rx) : pc.Has next batchAddrs := by
  have hlength := hfront.length_le
  have hsaved : ∀ {count : ℕ}, umem.Saved batchAddrs count → next.Saved batchAddrs count := by
    rintro count ⟨hcount, hsame⟩
    obtain ⟨more, hmore⟩ := hfront
    refine ⟨hcount.trans hlength, ?_⟩
    rw [hsame, ← hmore, List.take_append_of_le_length hcount]
  have hwaiting : ∀ {desc : XdpDesc}, umem.Waiting desc → next.Waiting desc := by
    rintro desc ⟨hinside, other, hother, hframe⟩
    exact ⟨hinside, other, hfront.subset hother, hframe⟩
  cases pc with
  | scanning => exact ⟨hhas.1, hhas.2.1.trans hlength, hsaved hhas.2.2⟩
  | claiming => exact ⟨hhas.1, hhas.2.1.trans hlength, hsaved hhas.2.2.1, hwaiting hhas.2.2.2⟩
  | copying => exact ⟨hhas.1, hhas.2.1.trans hlength, hsaved hhas.2.2.1, hwaiting hhas.2.2.2⟩
  | pushing => exact ⟨hhas.1, hhas.2.1.trans hlength, hsaved hhas.2.2⟩
  | releasing => exact ⟨hhas.1, hhas.2.1.trans hlength, hsaved hhas.2.2⟩
  | releasingRx => exact hsaved hhas
  | _ => trivial

/-- When the bytes of the frames in the receive ring stay, so does what the handler sees. -/
theorem XdpPc.network_eq {pc : XdpPc} {umem next : Umem} {batchAddrs : ℕ → ℕ}
    (hhas : pc.Has umem batchAddrs) (hfront : umem.rx <+: next.rx)
    (hinside : ∀ desc ∈ umem.rx, desc.Inside)
    (hbytes : ∀ desc, umem.Waiting desc → next.bytes desc = umem.bytes desc) :
    pc.network next = pc.network umem := by
  have hcontents : ∀ {rcvd : ℕ} (i : ℕ), rcvd ≤ umem.rx.length →
      next.contents rcvd i = umem.contents rcvd i := by
    intro rcvd i hrcvd
    obtain ⟨more, hmore⟩ := hfront
    unfold Umem.contents
    rw [← hmore, List.take_append_of_le_length hrcvd]
    refine List.map_congr_left fun desc hdesc => hbytes desc ?_
    have hmem : desc ∈ umem.rx := List.mem_of_mem_take (List.mem_of_mem_drop hdesc)
    exact ⟨hinside desc hmem, desc, hmem, rfl⟩
  cases pc with
  | scanning tWire rcvd i =>
      exact congrArg (NetworkPc.scanning tWire) (hcontents i hhas.2.1)
  | claiming tWire rcvd i moldPkt =>
      dsimp only [network]
      rw [hcontents (i + 1) hhas.2.1, hbytes moldPkt hhas.2.2.2]
  | copying slotIdx tWire rcvd i moldPkt =>
      dsimp only [network]
      rw [hcontents (i + 1) hhas.2.1, hbytes moldPkt hhas.2.2.2]
  | pushing ref rcvd i =>
      dsimp only [network]
      rw [hcontents (i + 1) hhas.2.1]
  | releasing slotIdx tWire rcvd i =>
      dsimp only [network]
      rw [hcontents (i + 1) hhas.2.1]
  | _ => rfl

namespace XdpPipeline

variable {numFrames : ℕ} {state next : XdpPipeline}

theorem frames_eq (state : XdpPipeline) :
    state.frames = state.umem.frames ++ (state.batch ++ state.lost) := by
  simp only [frames, Umem.frames, List.append_assoc]

namespace Owned

/-- A frame in the receive ring is not with the kernel. -/
theorem apart (howned : state.Owned numFrames) {desc : XdpDesc} (hdesc : desc ∈ state.umem.rx) :
    frameOf desc.addr ∉ state.umem.kernel := by
  have hnodup := howned.frames.nodup_iff.mpr List.nodup_range
  rw [XdpPipeline.frames] at hnodup
  have hrest := (List.nodup_append.mp hnodup).2.1
  intro hkernel
  refine (List.nodup_append.mp hrest).2.2 _ hkernel _ (List.mem_append_left _ ?_) rfl
  exact List.mem_map_of_mem hdesc

theorem kernel {kernel : Umem → Umem → Prop} (howned : state.Owned numFrames)
    (hkernel : KernelContract kernel) {umem : Umem} (hstep : kernel state.umem umem) :
    { state with umem }.Owned numFrames ∧ { state with umem }.view = state.view := by
  have hfront := hkernel.rx_front hstep
  have hframes : { state with umem }.frames.Perm state.frames := by
    rw [frames_eq, frames_eq]
    exact (hkernel.frames_perm hstep).append_right _
  have hnetwork : state.handler.network umem = state.handler.network state.umem := by
    refine XdpPc.network_eq howned.has hfront howned.inside ?_
    rintro desc ⟨hinside, other, hother, hframe⟩
    exact hkernel.bytes_eq hstep desc hinside (hframe ▸ howned.apart hother)
  refine ⟨⟨hframes.trans howned.frames, hkernel.inside hstep howned.inside,
    howned.has.front hfront⟩, ?_⟩
  unfold view
  rw [hnetwork]

/-- A step that leaves the area. -/
theorem same (howned : state.Owned numFrames) (humem : next.umem = state.umem)
    (hlost : next.lost = state.lost) (hbatch : next.batch = state.batch)
    (hhas : next.handler.Has next.umem next.batchAddrs) : next.Owned numFrames where
  frames := by
    rw [XdpPipeline.frames, humem, hbatch, hlost]
    exact howned.frames
  inside := by
    rw [humem]
    exact howned.inside
  has := hhas

end Owned

end XdpPipeline

/-- A frame passes the filter with what is behind its headers. -/
theorem moldPacket_suffix {port : UInt16} {frame moldPkt : List UInt8}
    (hsome : moldPacket port frame = some moldPkt) : moldPkt <:+ frame := by
  unfold moldPacket at hsome
  simp only [Option.ite_none_left_eq_some, Option.some.injEq] at hsome
  obtain ⟨_, _, _, _, _, _, _, _, rfl⟩ := hsome
  exact List.drop_suffix _ _

namespace Umem

variable {umem : Umem} {desc : XdpDesc}

theorem length_bytes (umem : Umem) (desc : XdpDesc) : (umem.bytes desc).length = desc.len :=
  Memory.length_slice ..

/-- The packet is read again from where it lies. -/
theorem bytes_tail {moldPkt : List UInt8} (hsuffix : moldPkt <:+ umem.bytes desc) :
    umem.bytes (desc.tail moldPkt.length) = moldPkt := by
  have hle : moldPkt.length ≤ desc.len := umem.length_bytes desc ▸ hsuffix.length_le
  have hdrop : moldPkt = (umem.bytes desc).drop (desc.len - moldPkt.length) := by
    rw [← umem.length_bytes desc]
    exact List.suffix_iff_eq_drop.mp hsuffix
  have hsplit : umem.bytes desc = umem.area.slice desc.addr (desc.len - moldPkt.length) ++
      umem.bytes (desc.tail moldPkt.length) := by
    have hlen : desc.len = desc.len - moldPkt.length + moldPkt.length :=
      (Nat.sub_add_cancel hle).symm
    calc umem.bytes desc
        = umem.area.slice desc.addr (desc.len - moldPkt.length + moldPkt.length) := by
          rw [← hlen]
          rfl
      _ = _ := Memory.slice_add ..
  conv_rhs => rw [hdrop]
  rw [hsplit]
  exact (List.drop_left' (Memory.length_slice ..)).symm

/-- The packet lies in the same frame. -/
theorem waiting_tail {len : ℕ} (hinside : desc.Inside) (hdesc : desc ∈ umem.rx)
    (hpos : 0 < len) (hle : len ≤ desc.len) : umem.Waiting (desc.tail len) := by
  refine ⟨?_, desc, hdesc, ?_⟩
  · unfold XdpDesc.Inside XdpDesc.tail kFrameSize at *
    dsimp only
    omega
  · unfold XdpDesc.Inside XdpDesc.tail frameOf kFrameSize at *
    dsimp only
    omega

theorem contents_cons {rcvd i : ℕ} (hi : i < rcvd) (hdesc : umem.rx[i]? = some desc) :
    umem.contents rcvd i = umem.bytes desc :: umem.contents rcvd (i + 1) := by
  have hlength := (List.getElem?_eq_some_iff.mp hdesc).1
  have htake : i < (umem.rx.take rcvd).length := by
    rw [List.length_take]
    exact Nat.lt_min.mpr ⟨hi, hlength⟩
  unfold contents
  rw [List.drop_eq_getElem_cons htake, List.map_cons, List.getElem_take,
    (List.getElem?_eq_some_iff.mp hdesc).2]

theorem contents_self (umem : Umem) (rcvd : ℕ) : umem.contents rcvd rcvd = [] := by
  unfold contents
  rw [List.drop_eq_nil_of_le (List.length_take_le _ _)]
  rfl

/-- One more address is saved. -/
theorem Saved.update {batchAddrs : ℕ → ℕ} {i : ℕ} (hsaved : umem.Saved batchAddrs i)
    (hdesc : umem.rx[i]? = some desc) :
    umem.Saved (Function.update batchAddrs i desc.addr) (i + 1) := by
  refine ⟨(List.getElem?_eq_some_iff.mp hdesc).1, ?_⟩
  have hold : (List.range i).map (Function.update batchAddrs i desc.addr) =
      (List.range i).map batchAddrs := by
    refine List.map_congr_left fun j hj => Function.update_of_ne ?_ ..
    exact (List.mem_range.mp hj).ne
  rw [List.range_succ, List.map_append, hold, hsaved.2, List.map_singleton,
    Function.update_self, List.take_add_one, hdesc, List.map_append]
  rfl

end Umem

namespace XdpPipeline

variable {port : UInt16} {room numFrames : ℕ} {gives : ℕ → ℕ → ℕ → Prop}
  {state next : XdpPipeline}

/-- Before the batch is released nothing of it is on its way. -/
theorem batch_of_ne (hpc : ∀ rcvd done, state.handler ≠ .refilling rcvd done) :
    state.batch = [] := by
  unfold batch
  split
  · rename_i rcvd done hrefilling
    exact (hpc rcvd done hrefilling).elim
  · rfl

/-- The batch is released: its frames are those whose addresses are saved. -/
theorem Owned.releaseRx (howned : state.Owned numFrames) {rcvd : ℕ} {done : Bool}
    (hpc : state.handler = .releasingRx rcvd done) :
    { state with
      umem := { state.umem with rx := state.umem.rx.drop rcvd }
      handler := .refilling rcvd done }.Owned numFrames := by
  have hsaved := howned.has
  rw [hpc] at hsaved
  have hbatch : (List.range rcvd).map (frameOf ∘ state.batchAddrs) =
      (state.umem.rx.take rcvd).map (frameOf ∘ XdpDesc.addr) := by
    rw [← List.map_map, hsaved.2, List.map_map]
  have hnone : state.batch = [] := batch_of_ne fun _ _ hother => by
    rw [hpc] at hother
    cases hother
  refine ⟨?_, fun desc hdesc => howned.inside desc (List.mem_of_mem_drop hdesc), trivial⟩
  have hframes := howned.frames
  rw [XdpPipeline.frames, hnone] at hframes
  refine List.Perm.trans ?_ hframes
  refine List.Perm.append_left _ (List.Perm.append_left _ ?_)
  change ((state.umem.rx.drop rcvd).map (frameOf ∘ XdpDesc.addr) ++
    ((List.range rcvd).map (frameOf ∘ state.batchAddrs) ++ state.lost)).Perm
      (state.umem.rx.map (frameOf ∘ XdpDesc.addr) ++ state.lost)
  rw [hbatch, ← List.append_assoc, ← List.map_append]
  refine List.Perm.append_right _ (List.Perm.map _ ?_)
  exact List.perm_append_comm.trans (List.Perm.of_eq (List.take_append_drop ..))

/-- What the reservation gives goes back to the kernel, the rest is lost. -/
theorem Owned.refill (howned : state.Owned numFrames) {rcvd got : ℕ} {done : Bool}
    (hpc : state.handler = .refilling rcvd done) (hgot : got ≤ rcvd) :
    { state with
      umem := { state.umem with fill := state.umem.fill ++ (List.range got).map state.batchAddrs }
      lost := state.lost ++ ((List.range rcvd).drop got).map (frameOf ∘ state.batchAddrs)
      handler := .testing done }.Owned numFrames := by
  have hbatch : state.batch = (List.range rcvd).map (frameOf ∘ state.batchAddrs) := by
    unfold batch
    rw [hpc]
  have hsplit : (List.range rcvd).map (frameOf ∘ state.batchAddrs) =
      (List.range got).map (frameOf ∘ state.batchAddrs) ++
        ((List.range rcvd).drop got).map (frameOf ∘ state.batchAddrs) := by
    rw [← List.map_append]
    conv_lhs => rw [← List.take_append_drop got (List.range rcvd)]
    rw [List.take_range, Nat.min_eq_left hgot]
  refine ⟨?_, howned.inside, trivial⟩
  have hframes := howned.frames
  rw [XdpPipeline.frames, hbatch, hsplit] at hframes
  refine List.Perm.trans ?_ hframes
  change ((state.umem.fill ++ (List.range got).map state.batchAddrs).map frameOf ++
    (state.umem.kernel ++ (state.umem.rx.map (frameOf ∘ XdpDesc.addr) ++
      ([] ++ (state.lost ++
        ((List.range rcvd).drop got).map (frameOf ∘ state.batchAddrs)))))).Perm _
  rw [List.map_append, List.map_map, List.perm_iff_count]
  intro frame
  simp only [List.count_append, List.count_nil]
  omega

theorem Owned.handler_step (howned : state.Owned numFrames)
    (hgives : ∀ rcvd free got, gives rcvd free got → got ≤ rcvd)
    (hstep : HandlerStep port room numFrames gives state next) (hlive : next.handler.Live) :
    next.Owned numFrames := by
  have hhas := howned.has
  have hquiet : ∀ {pc : XdpPc}, state.handler = pc → (∀ rcvd done, pc ≠ .refilling rcvd done) →
      next.umem = state.umem → next.lost = state.lost →
        (∀ rcvd done, next.handler ≠ .refilling rcvd done) →
          next.handler.Has next.umem next.batchAddrs → next.Owned numFrames := by
    rintro _ rfl hbefore humem hlost hafter
    exact howned.same humem hlost ((batch_of_ne hafter).trans (batch_of_ne hbefore).symm)
  cases hstep with
  | setUp hpc => exact hquiet hpc nofun rfl rfl nofun trivial
  | ended hpc => exact hlive.elim
  | stopped hpc hstop => exact hlive.elim
  | loop hpc hstop => exact hquiet hpc nofun rfl rfl nofun trivial
  | peek tWire rcvd hpc hbatch hrcvd =>
      refine hquiet hpc nofun rfl rfl (fun _ _ => ?_) ?_
      · dsimp only
        split <;> nofun
      · dsimp only
        split
        · trivial
        · exact ⟨Nat.zero_le rcvd, hrcvd, Nat.zero_le _, rfl⟩
  | skip tWire rcvd i desc hpc hi hdesc hnone =>
      rw [hpc] at hhas
      exact hquiet hpc nofun rfl rfl nofun ⟨hi, hhas.2.1, hhas.2.2.update hdesc⟩
  | scan tWire rcvd i desc moldPkt feed verdict hpc hi hdesc hsome htrack =>
      rw [hpc] at hhas
      have hsaved := hhas.2.2.update hdesc
      have hmem := List.mem_of_getElem? hdesc
      cases verdict with
      | endOfSession => exact hquiet hpc nofun rfl rfl nofun trivial
      | heartbeat => exact hquiet hpc nofun rfl rfl nofun ⟨hi, hhas.2.1, hsaved⟩
      | duplicate => exact hquiet hpc nofun rfl rfl nofun ⟨hi, hhas.2.1, hsaved⟩
      | accepted =>
          have hlong := le_length_of_moldPacket hsome
          have hle := (moldPacket_suffix hsome).length_le
          rw [Umem.length_bytes] at hle
          exact hquiet hpc nofun rfl rfl nofun ⟨hi, hhas.2.1, hsaved,
            Umem.waiting_tail (howned.inside desc hmem) hmem
              (Nat.lt_of_lt_of_le (by decide) hlong) hle⟩
  | claim tWire rcvd i moldPkt hpc hslot =>
      rw [hpc] at hhas
      exact hquiet hpc nofun rfl rfl nofun hhas
  | noSlot tWire rcvd i moldPkt hpc hslot =>
      rw [hpc] at hhas
      exact hquiet hpc nofun rfl rfl nofun ⟨hhas.1, hhas.2.1, hhas.2.2.1⟩
  | copy slotIdx tWire rcvd i moldPkt hpc =>
      rw [hpc] at hhas
      exact hquiet hpc nofun rfl rfl nofun ⟨hhas.1, hhas.2.1, hhas.2.2.1⟩
  | push ref rcvd i ring hpc hring =>
      rw [hpc] at hhas
      exact hquiet hpc nofun rfl rfl nofun hhas
  | refuse ref rcvd i ring hpc hring =>
      rw [hpc] at hhas
      exact hquiet hpc nofun rfl rfl nofun hhas
  | release slotIdx tWire rcvd i hpc =>
      rw [hpc] at hhas
      exact hquiet hpc nofun rfl rfl nofun hhas
  | sentinel tWire rcvd ring hpc hring => cases hlive
  | sentinelRefused tWire rcvd ring hpc hring => exact hquiet hpc nofun rfl rfl nofun trivial
  | waitStopped tWire rcvd hpc hstop => cases hlive
  | waitOn tWire rcvd hpc hstop => exact hquiet hpc nofun rfl rfl nofun trivial
  | batchDone tWire rcvd hpc =>
      rw [hpc] at hhas
      exact hquiet hpc nofun rfl rfl nofun hhas.2.2
  | releaseRx rcvd done hpc => exact howned.releaseRx hpc
  | refill rcvd got done hpc hgot => exact howned.refill hpc (hgives _ _ _ hgot)

end XdpPipeline

/-! ## Refinement -/

theorem XdpPc.network_of_not_live {pc : XdpPc} (hover : ¬ pc.Live) (umem : Umem) :
    pc.network umem = .finished := by
  cases pc with
  | testing done => exact if_pos (Bool.eq_true_of_not_eq_false hover)
  | releasingRx rcvd done => exact if_pos (Bool.eq_true_of_not_eq_false hover)
  | refilling rcvd done => exact if_pos (Bool.eq_true_of_not_eq_false hover)
  | finished => rfl
  | _ => exact (hover trivial).elim

namespace XdpPipeline

variable {port : UInt16} {room numFrames : ℕ} {kernel : Umem → Umem → Prop}
  {gives : ℕ → ℕ → ℕ → Prop} {state next : XdpPipeline}

/-- A step of the handler is a step of the pipeline, none at all, or two of them when a peek
finds nothing. -/
theorem refines_of_handler (hstep : HandlerStep port room numFrames gives state next) :
    Relation.ReflTransGen (PipelineStep port room) state.view next.view := by
  have hordinary : ∀ {pipe : Pipeline}, NetworkStep port room state.view pipe →
      Relation.ReflTransGen (PipelineStep port room) state.view pipe :=
    fun hnetwork => .single (.inl (.inl hnetwork))
  have hstutter : next.handler.network next.umem = state.handler.network state.umem →
      next.pool = state.pool → next.ring = state.ring → next.stop = state.stop →
        next.feed = state.feed → next.matching = state.matching →
          Relation.ReflTransGen (PipelineStep port room) state.view next.view := by
    intro hnetwork hpool hring hstop hfeed hmatching
    unfold view
    rw [hnetwork, hpool, hring, hstop, hfeed, hmatching]
  have hview : ∀ {pc : XdpPc}, state.handler = pc →
      state.view.network = pc.network state.umem := by
    rintro _ rfl
    rfl
  cases hstep with
  | setUp hpc => exact hordinary (.setUp state.view true (hview hpc))
  | ended hpc =>
      exact hstutter (by rw [hpc]; rfl) rfl rfl rfl rfl rfl
  | stopped hpc hstop => exact hordinary (.stopped state.view true (hview hpc) hstop)
  | loop hpc hstop => exact hordinary (.loop state.view true (hview hpc) hstop)
  | peek tWire rcvd hpc hbatch hrcvd =>
      have hlength : (state.umem.contents rcvd 0).length ≤ kBatchSize := by
        rw [Umem.contents, List.length_map, List.drop_zero]
        exact (List.length_take_le _ _).trans hbatch
      have hpeek := hordinary (.peek state.view tWire _ (hview hpc) hlength)
      by_cases hzero : rcvd = 0
      · subst hzero
        exact hpeek.tail (.inl (.inl (.batchDone _ tWire rfl)))
      · rw [if_neg hzero]
        exact hpeek
  | skip tWire rcvd i desc hpc hi hdesc hnone =>
      have hframes := Umem.contents_cons hi hdesc
      refine hordinary (.skip state.view tWire (state.umem.bytes desc) _ ?_ hnone)
      rw [hview hpc]
      exact congrArg (NetworkPc.scanning tWire) hframes
  | scan tWire rcvd i desc moldPkt feed verdict hpc hi hdesc hsome htrack =>
      have hframes := Umem.contents_cons hi hdesc
      have hscan : NetworkStep port room state.view
          { state.view with
            feed
            network := afterScan moldPkt tWire (state.umem.contents rcvd (i + 1)) verdict } := by
        refine .scan state.view tWire (state.umem.bytes desc) _ moldPkt ?_ hsome feed verdict htrack
        rw [hview hpc]
        exact congrArg (NetworkPc.scanning tWire) hframes
      have hsame : (afterLook tWire rcvd i (desc.tail moldPkt.length) verdict).network
          state.umem = afterScan moldPkt tWire (state.umem.contents rcvd (i + 1)) verdict := by
        cases verdict with
        | accepted =>
            dsimp only [afterLook, XdpPc.network, afterScan]
            rw [Umem.bytes_tail (moldPacket_suffix hsome)]
        | _ => rfl
      have hnext := hordinary hscan
      rw [← hsame] at hnext
      exact hnext
  | claim tWire rcvd i moldPkt hpc hslot =>
      exact hordinary (.claim state.view _ tWire _ (hview hpc) hslot)
  | noSlot tWire rcvd i moldPkt hpc hslot =>
      exact hordinary (.noSlot state.view _ tWire _ (hview hpc) hslot)
  | copy slotIdx tWire rcvd i moldPkt hpc =>
      exact hordinary (.copy state.view slotIdx _ tWire _ (hview hpc))
  | push ref rcvd i ring hpc hring =>
      exact hordinary (.push state.view ref _ ring (hview hpc) hring)
  | refuse ref rcvd i ring hpc hring =>
      exact hordinary (.refuse state.view ref _ ring (hview hpc) hring)
  | release slotIdx tWire rcvd i hpc =>
      exact hordinary (.release state.view slotIdx _ (hview hpc))
  | sentinel tWire rcvd ring hpc hring =>
      exact hordinary (.sentinel state.view tWire ring (hview hpc) hring)
  | sentinelRefused tWire rcvd ring hpc hring =>
      exact hordinary (.sentinelRefused state.view tWire ring (hview hpc) hring)
  | waitStopped tWire rcvd hpc hstop =>
      exact hordinary (.waitStopped state.view tWire (hview hpc) hstop)
  | waitOn tWire rcvd hpc hstop => exact hordinary (.waitOn state.view tWire (hview hpc) hstop)
  | batchDone tWire rcvd hpc =>
      refine hordinary (.batchDone state.view tWire ?_)
      rw [hview hpc]
      exact congrArg (NetworkPc.scanning tWire) (state.umem.contents_self rcvd)
  | releaseRx rcvd done hpc => exact hstutter (by rw [hpc]; rfl) rfl rfl rfl rfl rfl
  | refill rcvd got done hpc hgot => exact hstutter (by rw [hpc]; rfl) rfl rfl rfl rfl rfl

/-- The session does not start again. -/
theorem live_of_handler (hstep : HandlerStep port room numFrames gives state next)
    (hlive : next.handler.Live) : state.handler.Live := by
  cases hstep with
  | ended hpc => exact hlive.elim
  | stopped hpc hstop => exact hlive.elim
  | releaseRx rcvd done hpc =>
      rw [hpc]
      exact hlive
  | refill rcvd got done hpc hgot =>
      rw [hpc]
      exact hlive
  | _ => simp_all [XdpPc.Live]

/-- What a step keeps, and what it is in the pipeline. -/
theorem owned_and_refines_of_step (hkernel : KernelContract kernel)
    (hgives : ∀ rcvd free got, gives rcvd free got → got ≤ rcvd)
    (howned : state.handler.Live → state.Owned numFrames)
    (hstep : XdpStep port room numFrames kernel gives state next) :
    (next.handler.Live → next.Owned numFrames) ∧
      Relation.ReflTransGen (PipelineStep port room) state.view next.view := by
  cases hstep with
  | @kernel umem hmoved =>
      by_cases hlive : state.handler.Live
      · obtain ⟨hnext, hview⟩ := (howned hlive).kernel hkernel hmoved
        rw [hview]
        exact ⟨fun _ => hnext, .refl⟩
      · have hview : { state with umem }.view = state.view := by
          unfold view
          rw [XdpPc.network_of_not_live hlive, XdpPc.network_of_not_live hlive]
        rw [hview]
        exact ⟨fun hnext => (hlive hnext).elim, .refl⟩
  | handler hhandler =>
      exact ⟨fun hlive => (howned (live_of_handler hhandler hlive)).handler_step hgives hhandler
        hlive, refines_of_handler hhandler⟩
  | @matching pipe hmatching =>
      have hview : { state with
          pool := pipe.pool, ring := pipe.ring, stop := pipe.stop,
          matching := pipe.matching }.view = pipe := by
        cases hmatching <;> rfl
      rw [hview]
      exact ⟨fun hlive => (howned hlive).same rfl rfl rfl (howned hlive).has,
        .single (.inl (.inr hmatching))⟩
  | setUpFailed hpc =>
      refine ⟨fun hlive => hlive.elim, .single (.inr (.setUp state.view ?_))⟩
      change state.handler.network state.umem = .setUp
      rw [hpc]
      rfl

theorem owned_initial (numFrames numSlots : ℕ) (area : Memory) (batchAddrs : ℕ → ℕ) :
    (initial numFrames numSlots area batchAddrs).Owned numFrames := by
  refine ⟨?_, fun _ hdesc => (nomatch hdesc), trivial⟩
  have hfill : ((List.range numFrames).map (· * kFrameSize)).map frameOf =
      List.range numFrames := by
    rw [List.map_map]
    refine (List.map_congr_left fun frame _ => ?_).trans (List.map_id _)
    exact Nat.mul_div_cancel frame (by decide)
  change (((List.range numFrames).map (· * kFrameSize)).map frameOf ++ ([] ++ ([] ++ ([] ++
    [])))).Perm _
  rw [hfill]
  simp

end XdpPipeline

/-- The states that the three parties reach, from an area and a batch array with any content. -/
def XdpReached (port : UInt16) (numFrames : ℕ) (kernel : Umem → Umem → Prop)
    (gives : ℕ → ℕ → ℕ → Prop) (numSlots capacity : ℕ) (area : Memory) (batchAddrs : ℕ → ℕ)
    (state : XdpPipeline) : Prop :=
  Relation.ReflTransGen (XdpStep port (capacity - 1) numFrames kernel gives)
    (.initial numFrames numSlots area batchAddrs) state

section Runs

variable {port : UInt16} {numFrames : ℕ} {kernel : Umem → Umem → Prop}
  {gives : ℕ → ℕ → ℕ → Prop} {numSlots capacity : ℕ} {area : Memory} {batchAddrs : ℕ → ℕ}
  {state : XdpPipeline}

theorem XdpReached.owned (hkernel : KernelContract kernel)
    (hgives : ∀ rcvd free got, gives rcvd free got → got ≤ rcvd)
    (hreached : XdpReached port numFrames kernel gives numSlots capacity area batchAddrs state) :
    (state.handler.Live → state.Owned numFrames) ∧ Reached port numSlots capacity state.view := by
  induction hreached with
  | refl => exact ⟨fun _ => XdpPipeline.owned_initial .., .refl⟩
  | tail _ hstep ih =>
      obtain ⟨hnext, hrefines⟩ := XdpPipeline.owned_and_refines_of_step hkernel hgives ih.1
        hstep
      exact ⟨hnext, ih.2.trans hrefines⟩

end Runs

/-- The frames of the area while the session goes on: each is in one place, a packet lies in its
frame, nothing else has the frames that wait to be looked at, and a batch fits back. -/
structure FramesOwned (numFrames : ℕ) (state : XdpPipeline) : Prop where
  once : state.frames.Nodup
  all : ∀ frame, frame ∈ state.frames ↔ frame < numFrames
  inside : ∀ desc ∈ state.umem.rx, desc.Inside ∧ desc.addr + desc.len ≤ numFrames * kFrameSize
  apart : ∀ desc ∈ state.umem.rx, frameOf desc.addr ∉ state.umem.kernel ∧
    frameOf desc.addr ∉ state.umem.fill.map frameOf
  room : state.umem.fill.length + state.batch.length ≤ numFrames

theorem XdpPipeline.Owned.framesOwned {numFrames : ℕ} {state : XdpPipeline}
    (howned : state.Owned numFrames) : FramesOwned numFrames state := by
  have hnodup := howned.frames.nodup_iff.mpr List.nodup_range
  have hall : ∀ frame, frame ∈ state.frames ↔ frame < numFrames := fun frame => by
    rw [howned.frames.mem_iff, List.mem_range]
  have hwaiting : ∀ desc ∈ state.umem.rx,
      frameOf desc.addr ∈ state.umem.rx.map (frameOf ∘ XdpDesc.addr) :=
    fun desc hdesc => List.mem_map_of_mem hdesc
  refine ⟨hnodup, hall, fun desc hdesc => ⟨howned.inside desc hdesc, ?_⟩,
    fun desc hdesc => ⟨howned.apart hdesc, fun hfill => ?_⟩, ?_⟩
  · have hframe : frameOf desc.addr < numFrames := by
      rw [← hall, XdpPipeline.frames]
      exact List.mem_append_right _ (List.mem_append_right _ (List.mem_append_left _
        (hwaiting desc hdesc)))
    have hinside := howned.inside desc hdesc
    unfold XdpDesc.Inside frameOf kFrameSize at *
    omega
  · rw [XdpPipeline.frames] at hnodup
    exact (List.nodup_append.mp hnodup).2.2 _ hfill _ (List.mem_append_right _
      (List.mem_append_left _ (hwaiting desc hdesc))) rfl
  · have hlength := howned.frames.length_eq
    rw [XdpPipeline.frames, List.length_range] at hlength
    simp only [List.length_append, List.length_map] at hlength
    omega

/-- A kernel that takes a frame from the fill ring, writes anything into a frame that it has
taken, or puts a descriptor of it into the receive ring. -/
inductive KernelStep (umem : Umem) : Umem → Prop
  | take (addr : ℕ) (fill : List ℕ) (hfill : umem.fill = addr :: fill) :
      KernelStep umem { umem with fill, kernel := frameOf addr :: umem.kernel }
  | write (frame offset : ℕ) (bytes : List UInt8) (hframe : frame ∈ umem.kernel)
      (hfits : offset + bytes.length ≤ kFrameSize) :
      KernelStep umem { umem with area := umem.area.store (frame * kFrameSize + offset) bytes }
  | deliver (frame offset len : ℕ) (hframe : frame ∈ umem.kernel)
      (hoffset : offset < kFrameSize) (hfits : offset + len ≤ kFrameSize) :
      KernelStep umem
        { umem with
          kernel := umem.kernel.erase frame
          rx := umem.rx ++ [⟨frame * kFrameSize + offset, len⟩] }

theorem frameOf_add {frame offset : ℕ} (hoffset : offset < kFrameSize) :
    frameOf (frame * kFrameSize + offset) = frame := by
  unfold frameOf kFrameSize at *
  omega

theorem inside_of_fits {frame offset len : ℕ} (hoffset : offset < kFrameSize)
    (hfits : offset + len ≤ kFrameSize) :
    XdpDesc.Inside ⟨frame * kFrameSize + offset, len⟩ := by
  unfold XdpDesc.Inside kFrameSize at *
  dsimp only
  omega

/-- A write into one frame leaves the bytes of the others. -/
theorem Umem.bytes_store {umem : Umem} {desc : XdpDesc} {frame offset : ℕ} {bytes : List UInt8}
    (hinside : desc.Inside) (hother : frameOf desc.addr ≠ frame)
    (hfits : offset + bytes.length ≤ kFrameSize) :
    { umem with area := umem.area.store (frame * kFrameSize + offset) bytes }.bytes desc =
      umem.bytes desc := by
  refine Memory.slice_congr fun k hfrom hto => if_neg ?_
  unfold XdpDesc.Inside frameOf kFrameSize at *
  omega

theorem KernelStep.contract : KernelContract KernelStep where
  rx_front hstep := by
    cases hstep with
    | take => exact List.prefix_refl _
    | write => exact List.prefix_refl _
    | deliver => exact List.prefix_append _ _
  bytes_eq hstep desc hinside hother := by
    cases hstep with
    | take => rfl
    | write frame offset bytes hframe hfits =>
        exact Umem.bytes_store hinside (fun hsame => hother (hsame ▸ hframe)) hfits
    | deliver => rfl
  inside hstep hinside := by
    cases hstep with
    | take => exact hinside
    | write => exact hinside
    | deliver frame offset len hframe hoffset hfits =>
        intro desc hdesc
        rcases List.mem_append.mp hdesc with hold | hnew
        · exact hinside desc hold
        · rw [List.mem_singleton.mp hnew]
          exact inside_of_fits hoffset hfits
  frames_perm {umem next} hstep := by
    cases hstep with
    | take addr fill hfill =>
        unfold Umem.frames
        rw [hfill]
        exact List.perm_middle
    | write => exact List.Perm.refl _
    | deliver frame offset len hframe hoffset hfits =>
        refine List.Perm.append_left _ ?_
        have hnew : (umem.rx ++ [XdpDesc.mk (frame * kFrameSize + offset) len]).map
            (frameOf ∘ XdpDesc.addr) = umem.rx.map (frameOf ∘ XdpDesc.addr) ++ [frame] := by
          rw [List.map_append, List.map_singleton]
          exact congrArg (fun other => _ ++ [other]) (frameOf_add hoffset)
        rw [hnew]
        generalize umem.rx.map (frameOf ∘ XdpDesc.addr) = waiting
        calc umem.kernel.erase frame ++ (waiting ++ [frame])
            = (umem.kernel.erase frame ++ waiting) ++ [frame] := (List.append_assoc ..).symm
          List.Perm _ (frame :: (umem.kernel.erase frame ++ waiting)) :=
            List.perm_append_singleton ..
          _ = (frame :: umem.kernel.erase frame) ++ waiting := rfl
          List.Perm _ (umem.kernel ++ waiting) :=
            (List.perm_cons_erase hframe).symm.append_right _

/-- A batch of two frames, of which the first has a packet for port 1. -/
def peekedBatch (hdr : MoldHeader) (batchAddrs : ℕ → ℕ) : XdpPipeline :=
  { XdpPipeline.initial 2 3 (fun _ => 0) batchAddrs with
    umem :=
      { area := Memory.store (fun _ => 0) 0 (udpFrame 1 hdr.wire)
        fill := []
        rx := [⟨0, 62⟩, ⟨4096, 62⟩] }
    handler := .scanning 5 2 0 }

theorem length_udpFrame_wire (hdr : MoldHeader) : (udpFrame 1 hdr.wire).length = 62 := by
  rw [udpFrame, List.length_append, hdr.length_wire]
  rfl

theorem reached_peekedBatch (gives : ℕ → ℕ → ℕ → Prop) (hdr : MoldHeader) (batchAddrs : ℕ → ℕ) :
    XdpReached 1 2 KernelStep gives 3 2 (fun _ => 0) batchAddrs (peekedBatch hdr batchAddrs) := by
  have hsetUp : XdpReached 1 2 KernelStep gives 3 2 (fun _ => 0) batchAddrs _ :=
    .single (.handler (.setUp rfl))
  have htaken := (hsetUp.tail (.kernel (.take 0 [4096] rfl))).tail (.kernel (.take 4096 [] rfl))
  have hfits : 0 + (udpFrame 1 hdr.wire).length ≤ kFrameSize := by
    rw [length_udpFrame_wire]
    decide
  have hwritten := htaken.tail
    (.kernel (.write 0 0 (udpFrame 1 hdr.wire) (List.mem_cons_of_mem _ List.mem_cons_self) hfits))
  have hfirst := hwritten.tail (.kernel
    (.deliver 0 0 62 (List.mem_cons_of_mem _ List.mem_cons_self) (by decide) (by decide)))
  have hsecond := hfirst.tail
    (.kernel (.deliver 1 0 62 List.mem_cons_self (by decide) (by decide)))
  have hpeeking := hsecond.tail (.handler (.loop rfl rfl))
  exact hpeeking.tail (.handler (.peek 5 2 rfl (by decide) (Nat.le_refl 2)))

theorem bytes_peekedBatch (hdr : MoldHeader) (batchAddrs : ℕ → ℕ) :
    (peekedBatch hdr batchAddrs).umem.bytes ⟨0, 62⟩ = udpFrame 1 hdr.wire := by
  have hslice := Memory.slice_store (fun _ => 0) 0 (udpFrame 1 hdr.wire)
  rw [length_udpFrame_wire] at hslice
  exact hslice

theorem reached_looked (gives : ℕ → ℕ → ℕ → Prop) {hdr : MoldHeader} (batchAddrs : ℕ → ℕ)
    {verdict : Verdict} (hpacket : moldPacket 1 (udpFrame 1 hdr.wire) = some hdr.wire)
    (hverdict : ((FeedState.countReceived {} hdr.wire.length).track
      (parseMoldHeader (.ofList hdr.wire))).2 = verdict) :
    XdpReached 1 2 KernelStep gives 3 2 (fun _ => 0) batchAddrs
      { peekedBatch hdr batchAddrs with
        batchAddrs := Function.update batchAddrs 0 0
        feed := ((FeedState.countReceived {} hdr.wire.length).track
          (parseMoldHeader (.ofList hdr.wire))).1
        handler := afterLook 5 2 0 (XdpDesc.tail ⟨0, 62⟩ hdr.wire.length) verdict } :=
  (reached_peekedBatch gives hdr batchAddrs).tail (.handler (.scan 5 2 0 ⟨0, 62⟩ hdr.wire _ verdict
    rfl (by decide) rfl ((congrArg (moldPacket 1) (bytes_peekedBatch ..)).trans hpacket)
    (Prod.ext rfl hverdict)))

/-- The packet of one message is pushed and the batch is released. -/
def releasedBatch : XdpPipeline :=
  { peekedBatch (oneMessage 1) (fun _ => 0) with
    umem :=
      { area := Memory.store (fun _ => 0) 0 (udpFrame 1 (oneMessage 1).wire)
        fill := [] }
    batchAddrs := Function.update (Function.update (fun _ => 0) 0 0) 1 4096
    handler := .refilling 2 false
    pool := (PacketPool.create 3).acquire.2.modify 0 fun slot =>
      slot.fill (received ((peekedBatch (oneMessage 1) fun _ => 0).umem.bytes ⟨42, 20⟩))
    ring := [⟨0, 5⟩]
    feed := ((FeedState.countReceived {} 20).track
      (parseMoldHeader (.ofList (oneMessage 1).wire))).1 }

theorem reached_releasedBatch (gives : ℕ → ℕ → ℕ → Prop) :
    XdpReached 1 2 KernelStep gives 3 2 (fun _ => 0) (fun _ => 0) releasedBatch := by
  have hlooked := reached_looked gives (fun _ => 0)
    (show moldPacket 1 (udpFrame 1 (oneMessage 1).wire) = _ by decide +kernel)
    (show _ = Verdict.accepted by decide +kernel)
  have hnothing : moldPacket 1 (Memory.slice
      (Memory.store (fun _ => 0) 0 (udpFrame 1 (oneMessage 1).wire)) 4096 62) = none := by
    decide +kernel
  have hclaimed := hlooked.tail (.handler (.claim 5 2 0 ⟨42, 20⟩ rfl (by decide)))
  have hcopied := hclaimed.tail (.handler (.copy 0 5 2 0 ⟨42, 20⟩ rfl))
  have hpushed := hcopied.tail (.handler (.push ⟨0, 5⟩ 2 0 _ rfl (.push _ Nat.one_pos)))
  have hskipped := hpushed.tail
    (.handler (.skip 5 2 1 ⟨4096, 62⟩ rfl (by decide) rfl hnothing))
  have hdone := hskipped.tail (.handler (.batchDone 5 2 rfl))
  exact hdone.tail (.handler (.releaseRx 2 false rfl))

/-- A run of the AF_XDP path on the shared area is a run of the pipeline that takes its batches
as byte strings, and as long as the session goes on the frames are owned. -/
theorem xdpPipeline_refines {port : UInt16} {numFrames : ℕ} {kernel : Umem → Umem → Prop}
    {gives : ℕ → ℕ → ℕ → Prop} {numSlots capacity : ℕ} {area : Memory} {batchAddrs : ℕ → ℕ}
    {state : XdpPipeline} (hkernel : KernelContract kernel)
    (hgives : ∀ rcvd free got, gives rcvd free got → got ≤ rcvd)
    (hreached : XdpReached port numFrames kernel gives numSlots capacity area batchAddrs state) :
    Reached port numSlots capacity state.view ∧
      (state.handler.Live → FramesOwned numFrames state) := by
  obtain ⟨howned, hview⟩ := hreached.owned hkernel hgives
  exact ⟨hview, fun hlive => (howned hlive).framesOwned⟩

theorem xdpPipeline_refines_released : ∃ state : XdpPipeline,
    state.ring = [⟨0, 5⟩] ∧ state.batch = [0, 1] ∧ Reached 1 3 2 state.view ∧
      FramesOwned 2 state := by
  have hrefines := xdpPipeline_refines KernelStep.contract
    (fun _ _ _ hgot => hgot.trans_le (Nat.min_le_left _ _))
    (reached_releasedBatch fun rcvd free got => got = min rcvd free)
  exact ⟨releasedBatch, rfl, rfl, hrefines.1, hrefines.2 rfl⟩

/-! ## Frames that are not handed back -/

section Lost

variable {port : UInt16} {room numFrames : ℕ} {kernel : Umem → Umem → Prop}
  {gives : ℕ → ℕ → ℕ → Prop} {state next : XdpPipeline}

/-- Frames are lost by a reservation only. -/
theorem XdpStep.lost_cases (hstep : XdpStep port room numFrames kernel gives state next) :
    next.lost = state.lost ∨ ∃ rcvd got done, state.handler = .refilling rcvd done ∧
      gives rcvd (numFrames - state.umem.fill.length) got ∧
      next.lost = state.lost ++ ((List.range rcvd).drop got).map (frameOf ∘ state.batchAddrs) := by
  cases hstep with
  | handler hhandler =>
      cases hhandler with
      | refill rcvd got done hpc hgot => exact .inr ⟨rcvd, got, done, hpc, hgot, rfl⟩
      | _ => exact .inl rfl
  | _ => exact .inl rfl

theorem XdpStep.live (hstep : XdpStep port room numFrames kernel gives state next)
    (hlive : next.handler.Live) : state.handler.Live := by
  cases hstep with
  | handler hhandler => exact XdpPipeline.live_of_handler hhandler hlive
  | setUpFailed => exact hlive.elim
  | _ => exact hlive

theorem XdpStep.lost_front (hstep : XdpStep port room numFrames kernel gives state next) :
    state.lost <+: next.lost := by
  rcases hstep.lost_cases with hsame | ⟨_, _, _, _, _, hmore⟩
  · rw [hsame]
  · rw [hmore]
    exact List.prefix_append _ _

/-- A reservation that gives what there is leaves nothing of the batch. -/
theorem XdpStep.lost_eq (hexact : ∀ rcvd free got, gives rcvd free got → rcvd ≤ free → got = rcvd)
    (howned : state.Owned numFrames)
    (hstep : XdpStep port room numFrames kernel gives state next) :
    next.lost = state.lost := by
  rcases hstep.lost_cases with hsame | ⟨rcvd, got, done, hpc, hgot, hmore⟩
  · exact hsame
  · have hroom := howned.framesOwned.room
    have hbatch : state.batch.length = rcvd := by
      unfold XdpPipeline.batch
      rw [hpc, List.length_map, List.length_range]
    obtain rfl : got = rcvd := hexact _ _ _ hgot (by omega)
    rw [hmore, List.drop_eq_nil_of_le (Nat.le_of_eq List.length_range)]
    exact List.append_nil _

end Lost

/-- A frame that the reservation left out is out of use for good: as long as the session goes on
it comes back to neither ring, not to the kernel and not into a batch. -/
theorem xdpPipeline_lost_forever {port : UInt16} {numFrames : ℕ} {kernel : Umem → Umem → Prop}
    {gives : ℕ → ℕ → ℕ → Prop} {numSlots capacity : ℕ} {area : Memory} {batchAddrs : ℕ → ℕ}
    {state later : XdpPipeline} (hkernel : KernelContract kernel)
    (hgives : ∀ rcvd free got, gives rcvd free got → got ≤ rcvd)
    (hreached : XdpReached port numFrames kernel gives numSlots capacity area batchAddrs state)
    (hlater : Relation.ReflTransGen (XdpStep port (capacity - 1) numFrames kernel gives) state
      later)
    (hlive : later.handler.Live) :
    ∀ frame ∈ state.lost, frame ∈ later.lost ∧ frame ∉ later.umem.fill.map frameOf ∧
      frame ∉ later.umem.kernel ∧ frame ∉ later.umem.rx.map (frameOf ∘ XdpDesc.addr) ∧
      frame ∉ later.batch := by
  have hfront : state.lost <+: later.lost := by
    clear hlive
    induction hlater with
    | refl => exact List.prefix_refl _
    | tail _ hstep ih => exact ih.trans hstep.lost_front
  have hreached' : XdpReached port numFrames kernel gives numSlots capacity area batchAddrs later :=
    hreached.trans hlater
  have hnodup := ((hreached'.owned hkernel hgives).1 hlive).framesOwned.once
  intro frame hframe
  have hlost := hfront.subset hframe
  refine ⟨hlost, ?_⟩
  rw [XdpPipeline.frames] at hnodup
  simp only [List.nodup_append, List.mem_append] at hnodup
  grind

/-- The reservation gave one entry for the two frames. -/
def halfRefilled : XdpPipeline :=
  { releasedBatch with
    umem := { releasedBatch.umem with fill := [0] }
    lost := [1]
    handler := .testing false }

/-- The first frame goes round again, and its batch is released. -/
theorem xdpPipeline_lost_forever_nextBatch : ∃ later : XdpPipeline,
    halfRefilled.lost = [1] ∧ later.batch = [0] ∧ 1 ∈ later.lost ∧
      1 ∉ later.umem.fill.map frameOf ∧ 1 ∉ later.umem.kernel ∧ 1 ∉ later.batch := by
  have hreached := (reached_releasedBatch fun rcvd _ got => got = min rcvd 1).tail
    (.handler (.refill 2 1 false rfl rfl))
  have hnothing : moldPacket 1 (Memory.slice
      (Memory.store (fun _ => 0) 0 (udpFrame 1 (oneMessage 1).wire)) 256 60) = none := by
    decide +kernel
  have htaken : Relation.ReflTransGen (XdpStep 1 1 2 KernelStep fun rcvd _ got => got = min rcvd 1)
      halfRefilled _ := .single (.kernel (.take 0 [] rfl))
  have hdelivered := htaken.tail
    (.kernel (.deliver 0 256 60 List.mem_cons_self (by decide) (by decide)))
  have hpeeking := hdelivered.tail (.handler (.loop rfl rfl))
  have hpeeked := hpeeking.tail (.handler (.peek 6 1 rfl (by decide) (Nat.le_refl 1)))
  have hskipped := hpeeked.tail (.handler (.skip 6 1 0 ⟨256, 60⟩ rfl (by decide) rfl hnothing))
  have hdone := hskipped.tail (.handler (.batchDone 6 1 rfl))
  have hreleased := hdone.tail (.handler (.releaseRx 1 false rfl))
  have hnext := xdpPipeline_lost_forever KernelStep.contract
    (fun _ _ _ hgot => hgot.trans_le (Nat.min_le_left _ _)) hreached hreleased rfl 1
    (List.mem_singleton.mpr rfl)
  exact ⟨_, rfl, rfl, hnext.1, hnext.2.1, hnext.2.2.1, hnext.2.2.2.2⟩

/-- When the reservation gives what there is, no frame is ever lost: the fill ring has room for
the whole batch. -/
theorem xdpPipeline_loses_none {port : UInt16} {numFrames : ℕ} {kernel : Umem → Umem → Prop}
    {gives : ℕ → ℕ → ℕ → Prop} {numSlots capacity : ℕ} {area : Memory} {batchAddrs : ℕ → ℕ}
    {state : XdpPipeline} (hkernel : KernelContract kernel)
    (hgives : ∀ rcvd free got, gives rcvd free got → got ≤ rcvd)
    (hexact : ∀ rcvd free got, gives rcvd free got → rcvd ≤ free → got = rcvd)
    (hreached : XdpReached port numFrames kernel gives numSlots capacity area batchAddrs state)
    (hlive : state.handler.Live) : state.lost = [] := by
  induction hreached with
  | refl => rfl
  | tail hbefore hstep ih =>
      have hlive' := hstep.live hlive
      have howned := (XdpReached.owned hkernel hgives hbefore).1 hlive'
      rw [hstep.lost_eq hexact howned]
      exact ih hlive'

theorem xdpPipeline_loses_none_refilled : ∃ state : XdpPipeline,
    state.umem.fill = [0, 4096] ∧ state.ring = [⟨0, 5⟩] ∧ state.lost = [] := by
  have hrefilled := (reached_releasedBatch fun rcvd free got => got = min rcvd free).tail
    (.handler (.refill 2 2 false rfl rfl))
  have hnone := xdpPipeline_loses_none KernelStep.contract
    (fun _ _ _ hgot => hgot.trans_le (Nat.min_le_left _ _))
    (fun _ _ _ hgot hle => hgot.trans (Nat.min_eq_left hle)) hrefilled rfl
  exact ⟨_, rfl, rfl, hnone⟩

/-- The session has to go on. When it ends with the first frame of a batch of two, the second
address that is handed back is whatever stood in the array of addresses, and the second frame
is nowhere. -/
theorem exists_reached_not_handed_back {batchAddrs : ℕ → ℕ}
    (hother : frameOf (batchAddrs 1) ≠ 1) : ∃ state,
    XdpReached 1 2 KernelStep (fun rcvd free got => got = min rcvd free) 3 2 (fun _ => 0)
      batchAddrs state ∧ state.umem.fill = [0, batchAddrs 1] ∧ 1 ∉ state.frames := by
  let hdr : MoldHeader := { oneMessage 1 with messageCount := kMoldEndOfSession }
  have hlooked := reached_looked (fun rcvd free got => got = min rcvd free) batchAddrs
    (show moldPacket 1 (udpFrame 1 hdr.wire) = _ by decide +kernel)
    (show _ = Verdict.endOfSession by decide +kernel)
  have hsealed := hlooked.tail (.handler (.sentinel 5 2 _ rfl (.push _ Nat.one_pos)))
  have hreleased := hsealed.tail (.handler (.releaseRx 2 true rfl))
  refine ⟨_, hreleased.tail (.handler (.refill 2 2 true rfl rfl)), rfl, ?_⟩
  change 1 ∉ [frameOf 0, frameOf (batchAddrs 1)]
  rw [List.mem_pair, show frameOf 0 = 0 from rfl]
  exact not_or.mpr ⟨Nat.one_ne_zero, hother.symm⟩

end Orderbook
