import Pciem.Nvme.QueuePair

namespace Pciem.Nvme.Fifo

open Kernel Library.ByteMemory Library.BoundedChannel Library.TaggedRing Library.TransitionSystem
  Dma.Paged Dma.Local Ring.SharedRing Card Doorbell Rings QueuePair

/-- Every command that has been read is answered. -/
def Even (q : NvmeQueue) (pair : Pair) : Prop :=
  pair.read = pair.done.map Prod.fst ∧ pair.posted = answersTo q pair.done

/-- The card has nothing left to do of what it has been told. -/
def Resting (q : NvmeQueue) (pair : Pair) : Prop :=
  Even q pair ∧ pair.read.length = pair.rung

/-- How far the card is with queue `i`. -/
def Balance (q : NvmeQueue) (pc : Pc) (i : Fin maxQueues) (pair : Pair) : Prop :=
  match pc with
  | .idle => Resting q pair
  | .turn bell => if bell.queue = i then Even q pair else Resting q pair
  | .read bell cmd =>
    if bell.queue = i then
      pair.read = pair.done.map Prod.fst ++ [cmd] ∧ pair.posted = answersTo q pair.done
    else Resting q pair
  | .executed bell cmd status result =>
    if bell.queue = i then
      result = 0 ∧ ∃ done, pair.done = done ++ [(cmd, status)] ∧
        pair.read = pair.done.map Prod.fst ∧ pair.posted = answersTo q done
    else Resting q pair

/-- The queue `q` is now `q'`, and the two rings are in the memory of the guest. -/
structure Coherent (p : Platform) (q q' : NvmeQueue) (guest : Memory) (pair : Pair) : Prop where
  same : Same q q'
  sqHead : q'.sqHead.toNat = pair.read.length % q.sqSize.toNat
  sqTail : q'.sqTail.toNat = pair.rung % q.sqSize.toNat
  cqTail : q'.cqTail.toNat = pair.posted.length % cqEntries q
  cqPhase : q'.cqPhase = phaseOf (tag (cqEntries q) pair.posted.length)
  read : pair.read <+: pair.submitted
  read_le : pair.read.length ≤ pair.rung
  rung_le : pair.rung ≤ pair.submitted.length
  posted_le : pair.posted.length ≤ pair.read.length
  taken : pair.taken <+: pair.posted
  depth : pair.submitted.length ≤ pair.taken.length + depth q
  window : Window q.sqSize.toNat (fun z ↦ sqEntry p q guest z.toNat) pair.submitted
    pair.read.length
  shows : Shows (cqEntries q) (cqEntry p q guest) phaseTag pair.posted

/-- The doorbells in the ring, in the order in which they were rung. -/
structure Queued (io : Fin maxQueues → Prop) (ring : List Bell) (pairs : Fin maxQueues → Pair) :
    Prop where
  io : ∀ b ∈ ring, io b.queue
  counts : ∀ b ∈ ring, b.isCq = false →
    (pairs b.queue).rung ≤ b.count ∧ b.count ≤ (pairs b.queue).told
  told_le : ∀ i, (pairs i).told ≤ (pairs i).submitted.length
  sorted : ring.Pairwise fun a b ↦
    a.isCq = false → b.isCq = false → a.queue = b.queue → a.count ≤ b.count
  told : ∀ i, (pairs i).told = (pairs i).rung ∨
    ∃ b ∈ ring, b.queue = i ∧ b.isCq = false ∧ b.count = (pairs i).told

/-- The doorbell that the card handles. -/
def bellOf : Pc → Option Bell
  | .idle => none
  | .turn bell | .read bell _ | .executed bell _ _ _ => some bell

section Rings

variable {p : Platform} {q q' : NvmeQueue} {guest guest' : Memory} {pair : Pair}

theorem Coherent.slot (h : Coherent p q q' guest pair) {j : ℕ} (hlo : pair.read.length ≤ j)
    (hj : j < pair.submitted.length) :
    sqEntry p q guest (j % q.sqSize.toNat) = pair.submitted[j] :=
  h.window j hlo hj

theorem Coherent.congr (h : Coherent p q q' guest pair) (hspares : Spares p q pair guest guest') :
    Coherent p q q' guest' pair :=
  { h with
    window j hlo hj := (sqEntry_congr (hspares.sq j hlo hj)).trans (h.slot hlo hj)
    shows := h.shows.congr fun i hi ↦ cqEntry_congr (hspares.cq i hi) }

theorem Coherent.rung_lt (h : Coherent p q q' guest pair) (hpos : 0 < q.sqSize.toNat) :
    pair.rung < pair.read.length + q.sqSize.toNat := by
  have htaken := h.taken.length_le
  have hposted := h.posted_le
  have hrung := h.rung_le
  have hdepth := h.depth
  unfold QueuePair.depth at hdepth
  omega

/-- The head and the tail tell whether a command is left. -/
theorem Coherent.sqHead_eq_iff (h : Coherent p q q' guest pair) (hpos : 0 < q.sqSize.toNat) :
    q'.sqHead = q'.sqTail ↔ pair.read.length = pair.rung := by
  rw [← BitVec.toNat_inj, h.sqHead, h.sqTail]
  constructor
  · intro heq
    by_contra hne
    have hlt : pair.read.length < pair.rung := Nat.lt_of_le_of_ne h.read_le hne
    exact mod_ne_of_lt hlt (h.rung_lt hpos) heq
  · intro heq
    rw [heq]

theorem Coherent.submit (h : Coherent p q q' guest pair) {cmd : NvmeCommand}
    (hroom : pair.submitted.length < pair.taken.length + QueuePair.depth q)
    (hcmd : cmd = sqEntry p q guest (pair.submitted.length % q.sqSize.toNat)) :
    Coherent p q q' guest { pair with submitted := pair.submitted ++ [cmd] } :=
  { h with
    read := h.read.trans (List.prefix_append _ _)
    rung_le := h.rung_le.trans (by simp)
    depth := by
      dsimp only
      rw [List.length_append, List.length_singleton]
      omega
    window := h.window.append (by
      rw [Int.toNat_natCast]
      exact hcmd.symm) }

/-- A completion that shows the tag of the pass is the next one. -/
theorem Coherent.tag_iff (h : Coherent p q q' guest pair) :
    phaseTag (cqEntry p q guest (pair.taken.length % cqEntries q)) =
        tag (cqEntries q) pair.taken.length ↔ pair.taken.length < pair.posted.length := by
  have hposted := h.posted_le
  have hread := h.read_le
  have hrung := h.rung_le
  have hdepth := h.depth
  unfold QueuePair.depth at hdepth
  exact h.shows.tag_eq_iff h.taken.length_le (by omega) cqEntries_pos

theorem Coherent.entry_eq (h : Coherent p q q' guest pair)
    (hlt : pair.taken.length < pair.posted.length) :
    cqEntry p q guest (pair.taken.length % cqEntries q) = pair.posted[pair.taken.length] := by
  have hposted := h.posted_le
  have hread := h.read_le
  have hrung := h.rung_le
  have hdepth := h.depth
  unfold QueuePair.depth at hdepth
  exact h.shows.held _ hlt (by omega)

theorem prefix_concat {α : Type*} {l l' : List α} (h : l <+: l') (hlt : l.length < l'.length) :
    l ++ [l'[l.length]] <+: l' := by
  obtain ⟨rest, rfl⟩ := h
  cases rest with
  | nil => simp at hlt
  | cons a rest => exact ⟨rest, by simp⟩

theorem Coherent.take (h : Coherent p q q' guest pair) {cpl : NvmeCompletion}
    (hcpl : cpl = cqEntry p q guest (pair.taken.length % cqEntries q))
    (htag : phaseTag cpl = tag (cqEntries q) pair.taken.length) :
    Coherent p q q' guest { pair with taken := pair.taken ++ [cpl] } := by
  have hlt := h.tag_iff.mp (hcpl ▸ htag)
  have heq := hcpl.trans (h.entry_eq hlt)
  exact { h with
    taken := heq ▸ prefix_concat h.taken hlt
    depth := by
      dsimp only
      rw [List.length_append, List.length_singleton]
      exact h.depth.trans (by omega) }

theorem Coherent.fetch {env : Env} {dev : NvmeDevice} {cmd : NvmeCommand}
    (h : Coherent p q q' dev.guest pair) (hserving : Serving env p) (hlaid : Laid p q)
    (hne : q'.sqHead ≠ q'.sqTail) (hread : nvmeReadSqEntry env dev q' = (.ok (), cmd)) :
    Coherent p q q'.popped dev.guest { pair with read := pair.read ++ [cmd] } := by
  have hpos := hlaid.sqSize_pos
  have hlt : pair.read.length < pair.rung := Nat.lt_of_le_of_ne h.read_le fun heq ↦
    hne ((h.sqHead_eq_iff hpos).mpr heq)
  have hsubmitted := hlt.trans_le h.rung_le
  have hcmd : cmd = pair.submitted[pair.read.length] := by
    have hhead : q'.sqHead.toNat < q'.sqSize.toNat := by
      rw [h.sqHead, h.same.sqSize]
      exact Nat.mod_lt _ hpos
    have hentry : nvmeReadSqEntry env dev q' = (.ok (), sqEntry p q' dev.guest q'.sqHead.toNat) :=
      nvmeReadSqEntry_eq hserving (h.same.laid hlaid) hhead
    rw [hread, h.same.sqEntry, h.sqHead] at hentry
    exact (congrArg Prod.snd hentry).trans (h.slot (le_refl _) hsubmitted)
  exact { h with
    same := h.same.trans (same_popped q')
    sqHead := by
      have hsize : q'.sqSize ≠ 0 := h.same.sqSize ▸ hlaid.sqSize
      rw [toNat_popped_sqHead q' hsize, h.sqHead, h.same.sqSize, Nat.mod_add_mod,
        List.length_append, List.length_singleton]
    read := hcmd ▸ prefix_concat h.read hsubmitted
    read_le := by
      rw [List.length_append, List.length_singleton]
      exact hlt
    posted_le := h.posted_le.trans (by simp)
    window := h.window.advance (by simp) }

theorem completion_eq (h : Coherent p q q' guest pair) (hpos : 0 < q.sqSize.toNat)
    (hread : pair.posted.length + 1 = pair.read.length) (cmd : NvmeCommand)
    (status : BitVec 32) :
    completion q' cmd status 0 = completionFor q pair.posted.length cmd status := by
  have hhead : q'.sqHead = BitVec.ofNat 16 ((pair.posted.length + 1) % q.sqSize.toNat) := by
    apply BitVec.eq_of_toNat_eq
    have hlt := Nat.mod_lt (pair.posted.length + 1) hpos
    have hsize := q.sqSize.isLt
    have hfits : (pair.posted.length + 1) % q.sqSize.toNat < 2 ^ 16 := hlt.trans hsize
    rw [h.sqHead, ← hread, BitVec.toNat_ofNat, Nat.mod_eq_of_lt hfits]
  have hphase : (q'.cqPhase &&& 1).setWidth 32 =
      if tag (cqEntries q) pair.posted.length then (1 : BitVec 32) else 0 := by
    rw [h.cqPhase]
    cases tag (cqEntries q) pair.posted.length with
    | true => rfl
    | false => rfl
  unfold completion completionFor
  rw [hhead, hphase, h.same.id]

theorem phaseTag_completionFor {status : BitVec 32} (hplain : status.getLsbD 0 = false) (j : ℕ)
    (cmd : NvmeCommand) : phaseTag (completionFor q j cmd status) = tag (cqEntries q) j := by
  unfold phaseTag completionFor
  rw [BitVec.getLsbD_setWidth, BitVec.getLsbD_or, hplain]
  cases tag (cqEntries q) j with
  | true => rfl
  | false => rfl

theorem Coherent.post (h : Coherent p q q' guest pair) (hlaid : Laid p q)
    (hread : pair.posted.length + 1 = pair.read.length) {status : BitVec 32}
    (hplain : status.getLsbD 0 = false) (cmd : NvmeCommand) :
    Coherent p q q'.pushed (written p q guest q'.cqTail.toNat (completion q' cmd status 0))
      { pair with posted := pair.posted ++ [completion q' cmd status 0] } := by
  have hpos := cqEntries_pos (q := q)
  have hslot := Nat.mod_lt pair.posted.length hpos
  have hcursor := pushed_cursor (q := q') (c := pair.posted.length)
    (h.same.entries ▸ h.cqTail) (h.same.entries ▸ h.cqPhase)
  rw [h.same.entries] at hcursor
  rw [completion_eq h hlaid.sqSize_pos hread, h.cqTail]
  exact { h with
    same := h.same.trans (same_pushed q')
    sqHead := by
      rw [pushed_sqHead]
      exact h.sqHead
    sqTail := by
      rw [pushed_sqTail]
      exact h.sqTail
    cqTail := by
      rw [List.length_append, List.length_singleton]
      exact hcursor.1
    cqPhase := by
      rw [List.length_append, List.length_singleton]
      exact hcursor.2
    posted_le := by
      rw [List.length_append, List.length_singleton]
      exact hread.le
    taken := h.taken.trans (List.prefix_append _ _)
    window := by
      intro j hlo hj
      refine .trans (sqEntry_congr fun k hk ↦ written_outside fun l hl heq ↦ ?_) (h.slot hlo hj)
      exact hlaid.apart _ (Nat.mod_lt j hlaid.sqSize_pos) k hk _ hslot l hl heq.symm
    shows := h.shows.post hpos (cqEntry_written_self hlaid hslot guest _)
      (phaseTag_completionFor hplain _ cmd) fun i hi hne ↦
        cqEntry_written_other hlaid hslot hi hne guest _ }

end Rings

section Bells

variable (q : NvmeQueue) (bell : Bell)

theorem event_tail {q' : NvmeQueue} (hpos : 0 < q.sqSize.toNat) (h : bell.isCq = false) :
    (q'.rung (bell.event q)).sqTail.toNat = bell.count % q.sqSize.toNat := by
  have hlt := Nat.mod_lt bell.count hpos
  have hsize := q.sqSize.isLt
  unfold NvmeQueue.rung Bell.event
  rw [h]
  change ((BitVec.ofNat 64 (bell.count % q.sqSize.toNat)).setWidth 16).toNat = _
  rw [BitVec.toNat_setWidth, BitVec.toNat_ofNat, Nat.mod_eq_of_lt, Nat.mod_eq_of_lt]
  · omega
  · omega

variable {q bell} {p : Platform} {q' : NvmeQueue} {guest : Memory} {pair : Pair}

theorem Coherent.start (h : Coherent p q q' guest pair) (hpos : 0 < q.sqSize.toNat)
    (hsq : bell.isCq = false) (hlo : pair.rung ≤ bell.count)
    (hhi : bell.count ≤ pair.submitted.length) :
    Coherent p q (q'.rung (bell.event q)) guest { pair with rung := bell.count } :=
  { h with
    same := h.same.trans ⟨rfl, rfl, rfl, rfl, rfl⟩
    sqTail := event_tail q bell hpos hsq
    read_le := h.read_le.trans hlo
    rung_le := hhi }

theorem Coherent.ack (h : Coherent p q q' guest pair) (ev : PciemEvent) :
    Coherent p q (q'.acked ev) guest pair :=
  { h with same := h.same.trans ⟨rfl, rfl, rfl, rfl, rfl⟩ }

end Bells

/-- The command has been executed with this status. -/
def Ran (env : Env) (cmd : NvmeCommand) (status : BitVec 32) : Prop :=
  ∃ fuel dev dev', nvmeExecuteIoCommand env fuel dev cmd = some (status, dev')

theorem plain_statuses : nvmeSuccess.getLsbD 0 = false ∧ nvmeInternal.getLsbD 0 = false ∧
    nvmeInvalidField.getLsbD 0 = false := by
  decide

/-- A status leaves the bit of the phase tag free. -/
theorem Ran.plain {env : Env} {cmd : NvmeCommand} {status : BitVec 32} (h : Ran env cmd status) :
    status.getLsbD 0 = false := by
  obtain ⟨fuel, dev, dev', h⟩ := h
  obtain ⟨hsuccess, hinternal, hinvalid⟩ := plain_statuses
  have hanswered (r : Except Errno Unit × NvmeDevice) : (answered r).1.getLsbD 0 = false := by
    unfold answered
    split
    · exact hsuccess
    · exact hinternal
  have htransfer (writeToHost : Bool)
      (h : nvmeIoTransfer env fuel dev cmd writeToHost = some (status, dev')) :
      status.getLsbD 0 = false := by
    unfold nvmeIoTransfer at h
    split at h
    · cases h
      exact hinvalid
    · obtain ⟨r, -, hr⟩ := Option.map_eq_some_iff.mp h
      have hstatus := hanswered r
      rwa [hr] at hstatus
  unfold nvmeExecuteIoCommand at h
  split at h
  · cases h
    exact hsuccess
  · exact htransfer true h
  · exact htransfer false h
  · cases h
    exact hinvalid

section Run

variable {p : Platform} {io : Fin maxQueues → Prop} {qs : Fin maxQueues → NvmeQueue} {env : Env}
  {s s' : Machine}

variable (p io qs env) in
structure Inv (s : Machine) : Prop where
  coherent : ∀ i, io i → Coherent p (qs i) (s.dev.queues i) s.dev.guest (s.pairs i)
  balance : ∀ i, io i → Balance (qs i) s.pc i (s.pairs i)
  bell : ∀ b ∈ bellOf s.pc, io b.queue
  queued : Queued io s.ring s.pairs
  apart : ∀ i, io i → ∀ cmd ∈ (s.pairs i).submitted, Apart p io qs env cmd
  ran : ∀ i, io i → ∀ d ∈ (s.pairs i).done, Ran env d.1 d.2

theorem forall_setPair {P : Fin maxQueues → Pair → Prop} {i : Fin maxQueues} {pair : Pair}
    (hself : io i → P i pair) (hother : ∀ j, j ≠ i → io j → P j (s.pairs j)) (j : Fin maxQueues)
    (hj : io j) : P j ((s.setPair i pair).pairs j) := by
  rcases eq_or_ne j i with rfl | hne
  · rw [setPair_self]
    exact hself hj
  · rw [setPair_other s hne]
    exact hother j hne hj

theorem setPair_field {α : Type} {s : Machine} {i : Fin maxQueues} {pair : Pair} (f : Pair → α)
    (h : f pair = f (s.pairs i)) (j : Fin maxQueues) :
    f ((s.setPair i pair).pairs j) = f (s.pairs j) := by
  rcases eq_or_ne j i with rfl | hne
  · rw [setPair_self, h]
  · rw [setPair_other s hne]

/-- Changes of a pair that the doorbells say nothing about. -/
theorem Queued.setPair {ring : List Bell} {i : Fin maxQueues} {pair : Pair}
    (h : Queued io ring s.pairs) (hrung : pair.rung = (s.pairs i).rung)
    (htold : pair.told = (s.pairs i).told)
    (hsubmitted : (s.pairs i).submitted.length ≤ pair.submitted.length) :
    Queued io ring (s.setPair i pair).pairs := by
  have hrung' := setPair_field Pair.rung hrung
  have htold' := setPair_field Pair.told htold
  refine ⟨h.io, fun b hb hsq ↦ ?_, fun j ↦ ?_, h.sorted, fun j ↦ ?_⟩
  · rw [hrung', htold']
    exact h.counts b hb hsq
  · rw [htold']
    rcases eq_or_ne j i with rfl | hne
    · rw [setPair_self]
      exact (h.told_le j).trans hsubmitted
    · rw [setPair_other s hne]
      exact h.told_le j
  · rw [hrung', htold']
    exact h.told j

theorem inv_store (h : Inv p io qs env s) {guest : Memory}
    (hspares : ∀ i, io i → Spares p (qs i) (s.pairs i) s.dev.guest guest) :
    Inv p io qs env { s with dev := { s.dev with guest } } :=
  { h with coherent := fun i hi ↦ (h.coherent i hi).congr (hspares i hi) }

theorem inv_submit (h : Inv p io qs env s) {i : Fin maxQueues} {cmd : NvmeCommand}
    (hroom : (s.pairs i).submitted.length < (s.pairs i).taken.length + depth (qs i))
    (hcmd : cmd = sqEntry p (qs i) s.dev.guest
      ((s.pairs i).submitted.length % (qs i).sqSize.toNat))
    (hapart : Apart p io qs env cmd) : Inv p io qs env
      (s.setPair i { s.pairs i with submitted := (s.pairs i).submitted ++ [cmd] }) where
  coherent := forall_setPair (P := fun j ↦ Coherent p (qs j) (s.dev.queues j) s.dev.guest)
    (fun hi ↦ (h.coherent i hi).submit hroom hcmd) fun j _ hj ↦ h.coherent j hj
  balance := forall_setPair (P := fun j ↦ Balance (qs j) s.pc j) (h.balance i)
    fun j _ hj ↦ h.balance j hj
  bell := h.bell
  queued := h.queued.setPair rfl rfl (by simp)
  apart := forall_setPair (P := fun _ pair ↦ ∀ cmd ∈ pair.submitted, Apart p io qs env cmd)
    (fun hi c hc ↦ by
      rcases List.mem_append.mp hc with hold | hnew
      · exact h.apart i hi c hold
      · exact List.mem_singleton.mp hnew ▸ hapart) fun j _ hj ↦ h.apart j hj
  ran := forall_setPair (P := fun _ pair ↦ ∀ d ∈ pair.done, Ran env d.1 d.2) (h.ran i)
    fun j _ hj ↦ h.ran j hj

theorem inv_ring (h : Inv p io qs env s) {i : Fin maxQueues} (hi : io i) : Inv p io qs env
    (Machine.setPair { s with ring := s.ring ++ [⟨i, false, (s.pairs i).submitted.length⟩] } i
      { s.pairs i with told := (s.pairs i).submitted.length }) where
  coherent := forall_setPair (P := fun j ↦ Coherent p (qs j) (s.dev.queues j) s.dev.guest)
    (fun hi ↦ { h.coherent i hi with same := (h.coherent i hi).same }) fun j _ hj ↦ h.coherent j hj
  balance := forall_setPair (P := fun j ↦ Balance (qs j) s.pc j) (h.balance i)
    fun j _ hj ↦ h.balance j hj
  bell := h.bell
  queued := by
    have hrung := h.queued.told_le i
    have hpair (j : Fin maxQueues) (hne : j ≠ i) := setPair_other
      { s with ring := s.ring ++ [⟨i, false, (s.pairs i).submitted.length⟩] } hne
      { s.pairs i with told := (s.pairs i).submitted.length }
    refine ⟨fun b hb ↦ ?_, fun b hb hsq ↦ ?_, fun j ↦ ?_, ?_, fun j ↦ ?_⟩
    · rcases List.mem_append.mp hb with hb | hb
      · exact h.queued.io b hb
      · exact List.mem_singleton.mp hb ▸ hi
    · rcases List.mem_append.mp hb with hb | hb
      · have hcounts := h.queued.counts b hb hsq
        rcases eq_or_ne b.queue i with heq | hne
        · rw [heq] at hcounts ⊢
          rw [setPair_self]
          exact ⟨hcounts.1, hcounts.2.trans hrung⟩
        · rw [hpair _ hne]
          exact hcounts
      · rw [List.mem_singleton.mp hb, setPair_self]
        exact ⟨((h.coherent i hi).rung_le), le_refl _⟩
    · rcases eq_or_ne j i with rfl | hne
      · rw [setPair_self]
      · rw [hpair j hne]
        exact h.queued.told_le j
    · refine List.pairwise_append.mpr ⟨h.queued.sorted, List.pairwise_singleton _ _, ?_⟩
      intro a ha b hb hsq _ hqueue
      rw [List.mem_singleton.mp hb] at hqueue ⊢
      have hcounts := (h.queued.counts a ha hsq).2
      rw [hqueue] at hcounts
      exact hcounts.trans hrung
    · rcases eq_or_ne j i with rfl | hne
      · rw [setPair_self]
        exact .inr ⟨_, List.mem_append_right _ (List.mem_singleton_self _), rfl, rfl, rfl⟩
      · rw [hpair j hne]
        rcases h.queued.told j with heq | ⟨b, hb, hbell⟩
        · exact .inl heq
        · exact .inr ⟨b, List.mem_append_left _ hb, hbell⟩
  apart := forall_setPair (P := fun _ pair ↦ ∀ cmd ∈ pair.submitted, Apart p io qs env cmd)
    (h.apart i) fun j _ hj ↦ h.apart j hj
  ran := forall_setPair (P := fun _ pair ↦ ∀ d ∈ pair.done, Ran env d.1 d.2) (h.ran i)
    fun j _ hj ↦ h.ran j hj

theorem inv_ringCq (h : Inv p io qs env s) {i : Fin maxQueues} (hi : io i) (count : ℕ) :
    Inv p io qs env { s with ring := s.ring ++ [⟨i, true, count⟩] } :=
  { h with
    queued := by
      refine ⟨fun b hb ↦ ?_, fun b hb hsq ↦ ?_, h.queued.told_le, ?_, fun j ↦ ?_⟩
      · rcases List.mem_append.mp hb with hb | hb
        · exact h.queued.io b hb
        · exact List.mem_singleton.mp hb ▸ hi
      · rcases List.mem_append.mp hb with hb | hb
        · exact h.queued.counts b hb hsq
        · rw [List.mem_singleton.mp hb] at hsq
          cases hsq
      · refine List.pairwise_append.mpr ⟨h.queued.sorted, List.pairwise_singleton _ _, ?_⟩
        intro a _ b hb _ hsq
        rw [List.mem_singleton.mp hb] at hsq
        cases hsq
      · rcases h.queued.told j with heq | ⟨b, hb, hbell⟩
        · exact .inl heq
        · exact .inr ⟨b, List.mem_append_left _ hb, hbell⟩ }

theorem inv_take (h : Inv p io qs env s) {i : Fin maxQueues} {cpl : NvmeCompletion}
    (hcpl : cpl = cqEntry p (qs i) s.dev.guest ((s.pairs i).taken.length % cqEntries (qs i)))
    (htag : phaseTag cpl = tag (cqEntries (qs i)) (s.pairs i).taken.length) : Inv p io qs env
      (s.setPair i { s.pairs i with taken := (s.pairs i).taken ++ [cpl] }) where
  coherent := forall_setPair (P := fun j ↦ Coherent p (qs j) (s.dev.queues j) s.dev.guest)
    (fun hi ↦ (h.coherent i hi).take hcpl htag) fun j _ hj ↦ h.coherent j hj
  balance := forall_setPair (P := fun j ↦ Balance (qs j) s.pc j) (h.balance i)
    fun j _ hj ↦ h.balance j hj
  bell := h.bell
  queued := h.queued.setPair rfl rfl (le_refl _)
  apart := forall_setPair (P := fun _ pair ↦ ∀ cmd ∈ pair.submitted, Apart p io qs env cmd)
    (h.apart i) fun j _ hj ↦ h.apart j hj
  ran := forall_setPair (P := fun _ pair ↦ ∀ d ∈ pair.done, Ran env d.1 d.2) (h.ran i)
    fun j _ hj ↦ h.ran j hj

theorem Queued.tail {bell : Bell} {ring : List Bell} {pairs pairs' : Fin maxQueues → Pair}
    (h : Queued io (bell :: ring) pairs)
    (hsubmitted : ∀ i, (pairs' i).submitted = (pairs i).submitted)
    (htold : ∀ i, (pairs' i).told = (pairs i).told)
    (hrung : ∀ i, (pairs' i).rung =
      if bell.isCq = false ∧ bell.queue = i then bell.count else (pairs i).rung) :
    Queued io ring pairs' where
  io b hb := h.io b (List.mem_cons_of_mem _ hb)
  counts b hb hsq := by
    have hcounts := h.counts b (List.mem_cons_of_mem _ hb) hsq
    rw [htold, hrung]
    split
    · rename_i hbell
      exact ⟨List.rel_of_pairwise_cons h.sorted hb hbell.1 hsq hbell.2, hcounts.2⟩
    · exact hcounts
  told_le i := by
    rw [htold, hsubmitted]
    exact h.told_le i
  sorted := h.sorted.of_cons
  told i := by
    rw [htold, hrung]
    split
    · rename_i hbell
      obtain ⟨hlo, hhi⟩ := h.counts bell List.mem_cons_self hbell.1
      rw [hbell.2] at hlo hhi
      rcases h.told i with heq | ⟨b, hb, hqueue, hsq, hcount⟩
      · exact .inl (le_antisymm (heq ▸ hlo) hhi)
      · rcases List.mem_cons.mp hb with rfl | hb
        · exact .inl hcount.symm
        · exact .inr ⟨b, hb, hqueue, hsq, hcount⟩
    · rename_i hbell
      rcases h.told i with heq | ⟨b, hb, hqueue, hsq, hcount⟩
      · exact .inl heq
      · rcases List.mem_cons.mp hb with rfl | hb
        · exact absurd ⟨hsq, hqueue⟩ hbell
        · exact .inr ⟨b, hb, hqueue, hsq, hcount⟩

theorem inv_ack (h : Inv p io qs env s) {bell : Bell} {ring : List Bell}
    (hring : s.ring = bell :: ring) (hcq : bell.isCq = true) (ev : PciemEvent) (reg : BitVec 64) :
    Inv p io qs env { s with
      dev := echo (s.dev.setQueue bell.queue ((s.dev.queues bell.queue).acked ev)) reg ev
      ring } :=
  { h with
    coherent := fun j hj ↦ by
      change Coherent p (qs j) ((s.dev.setQueue bell.queue _).queues j) s.dev.guest (s.pairs j)
      rcases eq_or_ne j bell.queue with rfl | hne
      · rw [setQueue_self]
        exact (h.coherent _ hj).ack ev
      · rw [setQueue_other s.dev hne]
        exact h.coherent j hj
    queued := by
      have hqueued := h.queued
      rw [hring] at hqueued
      refine hqueued.tail (fun _ ↦ rfl) (fun _ ↦ rfl) fun i ↦ ?_
      rw [if_neg fun hbell ↦ Bool.false_ne_true (hbell.1.symm.trans hcq)] }

theorem inv_start (hlaid : ∀ i, io i → Laid p (qs i)) (h : Inv p io qs env s) {bell : Bell}
    {ring : List Bell} (hpc : s.pc = .idle) (hring : s.ring = bell :: ring)
    (hsq : bell.isCq = false) : Inv p io qs env (Machine.setPair { s with
      dev := s.dev.setQueue bell.queue
        ((s.dev.queues bell.queue).rung (bell.event (qs bell.queue)))
      pc := .turn bell
      ring } bell.queue { s.pairs bell.queue with rung := bell.count }) := by
  have hqueued := h.queued
  rw [hring] at hqueued
  have hio := hqueued.io bell List.mem_cons_self
  have hcounts := hqueued.counts bell List.mem_cons_self hsq
  have hrest (i : Fin maxQueues) (hi : io i) : Resting (qs i) (s.pairs i) := by
    have hbalance := h.balance i hi
    rw [hpc] at hbalance
    exact hbalance
  refine ⟨?_, ?_, ?_, ?_, ?_, ?_⟩
  · refine forall_setPair (P := fun j ↦ Coherent p (qs j) ((s.dev.setQueue bell.queue
      ((s.dev.queues bell.queue).rung (bell.event (qs bell.queue)))).queues j) s.dev.guest)
      (fun hi ↦ ?_) fun j hne hj ↦ ?_
    · rw [setQueue_self]
      exact (h.coherent _ hi).start (hlaid _ hi).sqSize_pos hsq hcounts.1
        (hcounts.2.trans (hqueued.told_le _))
    · rw [setQueue_other s.dev hne]
      exact h.coherent j hj
  · refine forall_setPair (P := fun j ↦ Balance (qs j) (.turn bell) j) (fun hi ↦ ?_)
      fun j hne hj ↦ ?_
    · exact (if_pos rfl).mpr (hrest _ hi).1
    · exact (if_neg hne.symm).mpr (hrest j hj)
  · intro b hb
    cases hb
    exact hio
  · refine hqueued.tail (setPair_field Pair.submitted rfl) (setPair_field Pair.told rfl)
      fun i ↦ ?_
    rcases eq_or_ne i bell.queue with rfl | hne
    · rw [setPair_self, if_pos ⟨hsq, rfl⟩]
    · rw [setPair_other _ hne, if_neg fun hbell ↦ hne hbell.2.symm]
  · exact forall_setPair (P := fun _ pair ↦ ∀ cmd ∈ pair.submitted, Apart p io qs env cmd)
      (h.apart _) fun j _ hj ↦ h.apart j hj
  · exact forall_setPair (P := fun _ pair ↦ ∀ d ∈ pair.done, Ran env d.1 d.2) (h.ran _)
      fun j _ hj ↦ h.ran j hj

theorem inv_fetch (hsetup : Setup p io qs env) (h : Inv p io qs env s) {bell : Bell}
    {cmd : NvmeCommand} (hpc : s.pc = .turn bell)
    (hne : (s.dev.queues bell.queue).sqHead ≠ (s.dev.queues bell.queue).sqTail)
    (hread : nvmeReadSqEntry env s.dev (s.dev.queues bell.queue) = (.ok (), cmd)) :
    Inv p io qs env (Machine.setPair { s with
      dev := s.dev.setQueue bell.queue (s.dev.queues bell.queue).popped
      pc := .read bell cmd } bell.queue
        { s.pairs bell.queue with read := (s.pairs bell.queue).read ++ [cmd] }) := by
  have hio := h.bell bell (by rw [hpc]; rfl)
  refine ⟨?_, ?_, ?_, ?_, ?_, ?_⟩
  · refine forall_setPair (P := fun j ↦ Coherent p (qs j) ((s.dev.setQueue bell.queue
      (s.dev.queues bell.queue).popped).queues j) s.dev.guest) (fun hi ↦ ?_) fun j hne hj ↦ ?_
    · rw [setQueue_self]
      exact (h.coherent _ hi).fetch hsetup.serving (hsetup.laid _ hi) hne hread
    · rw [setQueue_other s.dev hne]
      exact h.coherent j hj
  · refine forall_setPair (P := fun j ↦ Balance (qs j) (.read bell cmd) j) (fun hi ↦ ?_)
      fun j hne hj ↦ ?_
    · have hbalance := h.balance _ hi
      rw [hpc] at hbalance
      obtain ⟨hdone, hposted⟩ := (if_pos rfl).mp hbalance
      refine (if_pos rfl).mpr ⟨?_, hposted⟩
      exact congrArg (· ++ [cmd]) hdone
    · have hbalance := h.balance j hj
      rw [hpc] at hbalance
      exact (if_neg hne.symm).mpr ((if_neg hne.symm).mp hbalance)
  · intro b hb
    cases hb
    exact hio
  · exact h.queued.setPair rfl rfl (le_refl _)
  · exact forall_setPair (P := fun _ pair ↦ ∀ cmd ∈ pair.submitted, Apart p io qs env cmd)
      (h.apart _) fun j _ hj ↦ h.apart j hj
  · exact forall_setPair (P := fun _ pair ↦ ∀ d ∈ pair.done, Ran env d.1 d.2) (h.ran _)
      fun j _ hj ↦ h.ran j hj

theorem inv_execute (hsetup : Setup p io qs env) (h : Inv p io qs env s) {bell : Bell}
    {cmd : NvmeCommand} {fuel : ℕ} {status result : BitVec 32} {dev : NvmeDevice}
    (hpc : s.pc = .read bell cmd)
    (hdispatch : dispatch env fuel s.dev cmd bell.queue = some (status, result, dev)) :
    Inv p io qs env (Machine.setPair { s with dev, pc := .executed bell cmd status result }
      bell.queue
      { s.pairs bell.queue with done := (s.pairs bell.queue).done ++ [(cmd, status)] }) := by
  have hio := h.bell bell (by rw [hpc]; rfl)
  have hcoherent := h.coherent _ hio
  have hbalance := h.balance _ hio
  rw [hpc] at hbalance
  obtain ⟨hread, hposted⟩ := (if_pos rfl).mp hbalance
  have hid : (s.dev.queues bell.queue).id ≠ 0 := hcoherent.same.id ▸ hsetup.id _ hio
  obtain ⟨hrun, rfl⟩ := dispatch_io hid hdispatch
  have hsubmitted : cmd ∈ (s.pairs bell.queue).submitted :=
    hcoherent.read.subset (hread ▸ List.mem_append_right _ (List.mem_singleton_self _))
  have hkeeps := h.apart _ hio cmd hsubmitted fuel s.dev status dev hrun
  obtain ⟨guest, user, rfl⟩ := nvmeExecuteIoCommand_frame hrun
  refine ⟨?_, ?_, ?_, ?_, ?_, ?_⟩
  · refine forall_setPair (P := fun j ↦ Coherent p (qs j) (s.dev.queues j) guest)
      (fun hi ↦ ?_) fun j _ hj ↦ ?_
    · have hnow := hcoherent.congr ((hkeeps _ hi).spares (hsetup.laid _ hi).sqSize_pos)
      exact { hnow with same := hnow.same }
    · exact (h.coherent j hj).congr ((hkeeps j hj).spares (hsetup.laid j hj).sqSize_pos)
  · refine forall_setPair (P := fun j ↦ Balance (qs j) (.executed bell cmd status 0) j)
      (fun hi ↦ ?_) fun j hne hj ↦ ?_
    · refine (if_pos rfl).mpr ⟨rfl, _, rfl, ?_, hposted⟩
      dsimp only
      rw [List.map_append]
      exact hread
    · have hbalance := h.balance j hj
      rw [hpc] at hbalance
      exact (if_neg hne.symm).mpr ((if_neg hne.symm).mp hbalance)
  · intro b hb
    cases hb
    exact hio
  · exact h.queued.setPair rfl rfl (le_refl _)
  · exact forall_setPair (P := fun _ pair ↦ ∀ cmd ∈ pair.submitted, Apart p io qs env cmd)
      (h.apart _) fun j _ hj ↦ h.apart j hj
  · refine forall_setPair (P := fun _ pair ↦ ∀ d ∈ pair.done, Ran env d.1 d.2)
      (fun hi d hd ↦ ?_) fun j _ hj ↦ h.ran j hj
    rcases List.mem_append.mp hd with hd | hd
    · exact h.ran _ hi d hd
    · exact List.mem_singleton.mp hd ▸ ⟨fuel, s.dev, _, hrun⟩

theorem post_eq (hserving : Serving env p) {dev : NvmeDevice} {i : Fin maxQueues}
    (hlaid : Laid p (dev.queues i)) (htail : (dev.queues i).cqTail.toNat < cqEntries (dev.queues i))
    (cmd : NvmeCommand) (status result : BitVec 32) : post env dev cmd i status result =
      { dev.setQueue i (dev.queues i).pushed with
        guest := written p (dev.queues i) dev.guest (dev.queues i).cqTail.toNat
          (completion (dev.queues i) cmd status result)
        irqs := dev.irqs ++ [injection env dev.irqs.length (dev.queues i).vector] } := by
  unfold post
  dsimp only
  rw [nvmeDmaWrite_completion hserving hlaid htail]
  rfl

/-- A completion is written where no other queue has its rings. -/
theorem keeps_written (hsetup : Setup p io qs env) {i j : Fin maxQueues} (hi : io i) (hj : io j)
    (hne : i ≠ j) {a : ℕ} (ha : a < cqEntries (qs i)) (guest : Memory) (cpl : NvmeCompletion) :
    Keeps p (qs j) guest (written p (qs i) guest a cpl) where
  cq b hb l hl := written_outside fun k hk ↦
    (hsetup.apart i hi j hj hne a ha k hk).1 b hb l hl
  sq b hb l hl := written_outside fun k hk ↦
    (hsetup.apart i hi j hj hne a ha k hk).2 b hb l hl

theorem inv_post (hsetup : Setup p io qs env) (h : Inv p io qs env s) {bell : Bell}
    {cmd : NvmeCommand} {status result : BitVec 32}
    (hpc : s.pc = .executed bell cmd status result) :
    Inv p io qs env (Machine.setPair { s with
      dev := post env s.dev cmd bell.queue status result
      pc := .turn bell } bell.queue { s.pairs bell.queue with
        posted := (s.pairs bell.queue).posted ++
          [completion (s.dev.queues bell.queue) cmd status result] }) := by
  have hio := h.bell bell (by rw [hpc]; rfl)
  have hcoherent := h.coherent _ hio
  have hlaid := hsetup.laid _ hio
  have hbalance := h.balance _ hio
  rw [hpc] at hbalance
  obtain ⟨rfl, done, hdone, hread, hposted⟩ := (if_pos rfl).mp hbalance
  have hcount : (s.pairs bell.queue).posted.length + 1 = (s.pairs bell.queue).read.length := by
    rw [hread, hdone, hposted]
    simp [answersTo]
  have hplain := (h.ran _ hio (cmd, status)
    (hdone ▸ List.mem_append_right _ (List.mem_singleton_self _))).plain
  have hslot : (s.dev.queues bell.queue).cqTail.toNat < cqEntries (qs bell.queue) := by
    rw [hcoherent.cqTail]
    exact Nat.mod_lt _ cqEntries_pos
  rw [post_eq hsetup.serving (hcoherent.same.laid hlaid) (hcoherent.same.entries.symm ▸ hslot),
    hcoherent.same.written]
  refine ⟨?_, ?_, ?_, ?_, ?_, ?_⟩
  · refine forall_setPair (P := fun j ↦ Coherent p (qs j) ((s.dev.setQueue bell.queue
      (s.dev.queues bell.queue).pushed).queues j) _) (fun hi ↦ ?_) fun j hne hj ↦ ?_
    · rw [setQueue_self]
      exact hcoherent.post hlaid hcount hplain cmd
    · rw [setQueue_other s.dev hne]
      exact (h.coherent j hj).congr ((keeps_written hsetup hio hj hne.symm hslot _ _).spares
        (hsetup.laid j hj).sqSize_pos)
  · refine forall_setPair (P := fun j ↦ Balance (qs j) (.turn bell) j) (fun hi ↦ ?_)
      fun j hne hj ↦ ?_
    · refine (if_pos rfl).mpr ⟨hread, ?_⟩
      dsimp only
      rw [completion_eq hcoherent hlaid.sqSize_pos hcount, hdone, answersTo, List.mapIdx_concat,
        hposted]
      simp [answersTo]
    · have hbalance := h.balance j hj
      rw [hpc] at hbalance
      exact (if_neg hne.symm).mpr ((if_neg hne.symm).mp hbalance)
  · intro b hb
    cases hb
    exact hio
  · exact h.queued.setPair rfl rfl (le_refl _)
  · exact forall_setPair (P := fun _ pair ↦ ∀ cmd ∈ pair.submitted, Apart p io qs env cmd)
      (h.apart _) fun j _ hj ↦ h.apart j hj
  · exact forall_setPair (P := fun _ pair ↦ ∀ d ∈ pair.done, Ran env d.1 d.2) (h.ran _)
      fun j _ hj ↦ h.ran j hj

theorem inv_finish (hsetup : Setup p io qs env) (h : Inv p io qs env s) {bell : Bell}
    (hpc : s.pc = .turn bell)
    (heq : (s.dev.queues bell.queue).sqHead = (s.dev.queues bell.queue).sqTail) (reg : BitVec 64)
    (ev : PciemEvent) : Inv p io qs env { s with dev := echo s.dev reg ev, pc := .idle } := by
  have hio := h.bell bell (by rw [hpc]; rfl)
  refine { h with balance := fun j hj ↦ ?_, bell := fun b hb ↦ by cases hb }
  have hbalance := h.balance j hj
  rw [hpc] at hbalance
  change Resting (qs j) (s.pairs j)
  rcases eq_or_ne bell.queue j with rfl | hne
  · exact ⟨(if_pos rfl).mp hbalance,
      ((h.coherent _ hio).sqHead_eq_iff (hsetup.laid _ hio).sqSize_pos).mp heq⟩
  · exact (if_neg hne).mp hbalance

theorem inv_step (hsetup : Setup p io qs env) (h : Inv p io qs env s)
    (hs : Step p io qs env s s') : Inv p io qs env s' := by
  cases hs with
  | store guest hspares => exact inv_store h hspares
  | submit hi hroom hcmd hapart => exact inv_submit h hroom hcmd hapart
  | ring hi => exact inv_ring h hi
  | ringCq hi => exact inv_ringCq h hi _
  | take hi hcpl htag => exact inv_take h hcpl htag
  | ack hpc hring hqueue hcq =>
    rw [event_queue] at hqueue
    cases hqueue
    exact inv_ack h hring ((event_isCq ..).mp hcq) _ _
  | start hpc hring hqueue hcq =>
    rw [event_queue] at hqueue
    cases hqueue
    rw [event_isCq, Bool.not_eq_true] at hcq
    exact inv_start hsetup.laid h hpc hring hcq
  | fetch hpc hne hread => exact inv_fetch hsetup h hpc hne hread
  | execute hpc hdispatch => exact inv_execute hsetup h hpc hdispatch
  | post hpc => exact inv_post hsetup h hpc
  | finish hpc heq => exact inv_finish hsetup h hpc heq _ _

theorem coherent_fresh {q : NvmeQueue} {guest : Memory} (h : Fresh p q guest) :
    Coherent p q q guest ⟨[], 0, [], 0, [], [], []⟩ where
  same := ⟨rfl, rfl, rfl, rfl, rfl⟩
  sqHead := by
    rw [h.sqHead]
    exact (Nat.zero_mod _).symm
  sqTail := by
    rw [h.sqTail]
    exact (Nat.zero_mod _).symm
  cqTail := by
    rw [h.cqTail]
    exact (Nat.zero_mod _).symm
  cqPhase := by
    rw [h.cqPhase]
    exact (congrArg phaseOf (tag_of_lt cqEntries_pos)).symm
  read := List.prefix_refl []
  read_le := le_refl _
  rung_le := le_refl _
  posted_le := le_refl _
  taken := List.prefix_refl []
  depth := Nat.zero_le _
  window := .nil
  shows := shows_nil h.clear

theorem inv_init (h : (queuePairs p io qs env).init s) : Inv p io qs env s := by
  obtain ⟨hqueues, hfresh, hpc, hring, hpairs⟩ := h
  refine ⟨fun i hi ↦ ?_, fun i _ ↦ ?_, fun b hb ↦ ?_, ?_, fun i _ cmd hcmd ↦ ?_, fun i _ d hd ↦ ?_⟩
  · rw [hqueues, hpairs]
    exact coherent_fresh (hfresh i hi)
  · rw [hpc, hpairs]
    exact ⟨⟨rfl, rfl⟩, rfl⟩
  · rw [hpc] at hb
    cases hb
  · rw [hring]
    refine ⟨fun b hb ↦ ?_, fun b hb ↦ ?_, fun i ↦ ?_, .nil, fun i ↦ .inl ?_⟩
    · cases hb
    · cases hb
    · rw [hpairs]
      exact le_refl _
    · rw [hpairs]
  · rw [hpairs] at hcmd
    cases hcmd
  · rw [hpairs] at hd
    cases hd

theorem answersTo_concat (q : NvmeQueue) (done : List (NvmeCommand × BitVec 32))
    (d : NvmeCommand × BitVec 32) : answersTo q done <+: answersTo q (done ++ [d]) := by
  unfold answersTo
  rw [List.mapIdx_concat]
  exact List.prefix_append _ _

/-- However far the card is, it has executed what it has read and answered what it has executed,
in order. -/
theorem Balance.ordered {q : NvmeQueue} {pc : Pc} {i : Fin maxQueues} {pair : Pair}
    (h : Balance q pc i pair) :
    pair.done.map Prod.fst <+: pair.read ∧ pair.posted <+: answersTo q pair.done := by
  have heven (h : Even q pair) :
      pair.done.map Prod.fst <+: pair.read ∧ pair.posted <+: answersTo q pair.done :=
    ⟨h.1 ▸ List.prefix_refl _, h.2 ▸ List.prefix_refl _⟩
  unfold Balance at h
  cases pc with
  | idle => exact heven h.1
  | turn bell =>
    dsimp only at h
    split at h
    · exact heven h
    · exact heven h.1
  | read bell cmd =>
    dsimp only at h
    split at h
    · exact ⟨h.1 ▸ List.prefix_append _ _, h.2 ▸ List.prefix_refl _⟩
    · exact heven h.1
  | executed bell cmd status result =>
    dsimp only at h
    split at h
    · obtain ⟨-, done, hdone, hread, hposted⟩ := h
      refine ⟨hread ▸ List.prefix_refl _, ?_⟩
      rw [hposted, hdone]
      exact answersTo_concat q done _
    · exact heven h.1

/-- Whatever the driver's processors and the card do at the same time, on each of the queues the
card executes the commands that have been submitted, each once and in order, and the completions
that the driver takes are theirs, none lost, repeated or stale. When the card waits for an event
it has answered every command that it has been told of, and the driver sees it. -/
theorem queue_pairs_fifo (p : Platform) (io : Fin maxQueues → Prop)
    (qs : Fin maxQueues → NvmeQueue) (env : Env) (hsetup : Setup p io qs env) (s : Machine)
    (hs : (queuePairs p io qs env).Reachable s) (i : Fin maxQueues) (hi : io i) :
    (s.pairs i).done.map Prod.fst <+: (s.pairs i).submitted ∧
    (∀ d ∈ (s.pairs i).done, Ran env d.1 d.2) ∧
    (s.pairs i).taken <+: answersTo (qs i) (s.pairs i).done ∧
    (s.pc = .idle → (∀ b ∈ s.ring, b.queue = i → b.isCq = true) →
      (s.pairs i).done.length = (s.pairs i).told ∧
      (phaseTag (cqEntry p (qs i) s.dev.guest
          ((s.pairs i).taken.length % cqEntries (qs i))) =
            tag (cqEntries (qs i)) (s.pairs i).taken.length ↔
        (s.pairs i).taken.length < (s.pairs i).told)) := by
  have hinv : Inv p io qs env s :=
    hs.invariant (fun _ ↦ inv_init) fun _ _ h hstep ↦ inv_step hsetup h hstep
  have hcoherent := hinv.coherent i hi
  have hordered := Balance.ordered (hinv.balance i hi)
  refine ⟨hordered.1.trans hcoherent.read, hinv.ran i hi, hcoherent.taken.trans hordered.2,
    fun hpc hbells ↦ ?_⟩
  have hrest := hinv.balance i hi
  rw [hpc] at hrest
  obtain ⟨⟨hread, hposted⟩, hrung⟩ := hrest
  have htold : (s.pairs i).told = (s.pairs i).rung := by
    rcases hinv.queued.told i with heq | ⟨b, hb, hqueue, hsq, -⟩
    · exact heq
    · exact absurd (hsq.symm.trans (hbells b hb hqueue)) Bool.false_ne_true
  have hdone : (s.pairs i).done.length = (s.pairs i).told := by
    rw [htold, ← hrung, hread, List.length_map]
  have hlength : (s.pairs i).posted.length = (s.pairs i).told := by
    rw [hposted, answersTo, List.length_mapIdx, hdone]
  exact ⟨hdone, hlength ▸ hcoherent.tag_iff⟩

end Run

section Example

open Dma.Prp

/-- Queues of four entries each that have just been created. -/
def created (i : Fin maxQueues) : NvmeQueue :=
  ⟨true, 4, 4, 0x10000, 0x20000, 0, 0, 0, 0, 1, 1, BitVec.ofNat 16 i.val⟩

/-- The driver uses queue 1. -/
def atRest : Machine where
  dev := { rung with queues := created }
  pc := .idle
  ring := []
  pairs _ := ⟨[], 0, [], 0, [], [], []⟩

theorem toNat_created (i : ℕ) (hi : i < 4) (k : ℕ) (hk : k < 64) :
    sqCell direct (created 1) i k = 0x10000 + 64 * i + k ∧
      cqCell direct (created 1) i k = 0x20000 + 16 * i + k := by
  have haddr (a : BitVec 64) (n : ℕ) (hn : n < 256) (ha : a.toNat < 2 ^ 20) :
      locate direct (a + BitVec.ofNat 64 n + BitVec.ofNat 64 k) = a.toNat + n + k := by
    rw [locate_direct, BitVec.toNat_add, BitVec.toNat_add, BitVec.toNat_ofNat, BitVec.toNat_ofNat]
    omega
  exact ⟨haddr 0x10000 (64 * i) (by omega) (by decide),
    haddr 0x20000 (16 * i) (by omega) (by decide)⟩

theorem laid_created : Laid direct (created 1) where
  sqSize := by decide
  sq i hi := by
    have hi : i < 4 := hi
    refine accessible_direct ?_ ?_
    · rw [sqIova, BitVec.toNat_add, BitVec.toNat_ofNat]
      change 4096 ≤ (0x10000 + _) % _
      omega
    · rw [sqIova, BitVec.toNat_add, BitVec.toNat_ofNat]
      change (0x10000 + _) % _ + _ + _ < _
      omega
  cq i hi := by
    have hi : i < 4 := hi
    refine accessible_direct ?_ ?_
    · rw [cqIova, BitVec.toNat_add, BitVec.toNat_ofNat]
      change 4096 ≤ (0x20000 + _) % _
      omega
    · rw [cqIova, BitVec.toNat_add, BitVec.toNat_ofNat]
      change (0x20000 + _) % _ + _ + _ < _
      omega
  distinct i hi k hk j hj l hl heq := by
    rw [(toNat_created i hi k (by omega)).2, (toNat_created j hj l (by omega)).2] at heq
    omega
  apart i hi k hk j hj l hl heq := by
    have hi : i < 4 := hi
    have hj : j < 4 := hj
    rw [(toNat_created i hi k hk).1, (toNat_created j hj l (by omega)).2] at heq
    omega

theorem setup_created : Setup direct (· = 1) created serving where
  serving := ⟨rfl, rfl, _, rfl⟩
  id := by
    rintro i rfl
    decide
  laid := by
    rintro i rfl
    exact laid_created
  apart := by
    rintro i rfl j rfl hne
    exact absurd rfl hne

def numberedFlush (id : BitVec 16) : NvmeCommand := { flush with commandId := id }

/-- The commands are in the first two slots. -/
def twoFlushes : Memory := store (store (fun _ ↦ 0) 0x10002 [5]) 0x10042 [6]

theorem apart_flush (id : BitVec 16) :
    Apart direct (· = 1) created serving (numberedFlush id) := by
  intro fuel dev status dev' h i _
  cases h
  exact ⟨fun _ _ _ _ ↦ rfl, fun _ _ _ _ ↦ rfl⟩

theorem spares_twoFlushes (i : Fin maxQueues) (hi : i = 1) :
    Spares direct (created i) (atRest.pairs i) atRest.dev.guest twoFlushes := by
  subst hi
  refine ⟨fun j hj k hk ↦ ?_, fun j _ hj ↦ absurd hj (Nat.not_lt_zero j)⟩
  rw [(toNat_created j hj k (by omega)).2, twoFlushes, store_outside (by simp; omega),
    store_outside (by simp; omega)]
  rfl

/-- The driver submits two commands, rings once and takes their completions. -/
theorem exists_two_taken : ∃ s, (queuePairs direct (· = 1) created serving).Reachable s ∧
    (s.pairs 1).taken.map (·.commandId) = [5, 6] ∧ s.pc = .idle ∧ s.ring = [] := by
  have hinit : (queuePairs direct (· = 1) created serving).Reachable atRest := by
    refine .init ⟨rfl, ?_, rfl, rfl, fun _ ↦ rfl⟩
    rintro i rfl
    have hclear : phaseTag (completionOfBytes fun _ ↦ 0) = false := by decide
    exact ⟨rfl, rfl, rfl, rfl, fun _ _ ↦ hclear⟩
  have hrung := (((hinit.step (.store twoFlushes spares_twoFlushes)).step
    (.submit (i := 1) rfl (by decide) (rfl : numberedFlush 5 = _) (apart_flush 5))).step
    (.submit (i := 1) rfl (by decide) (rfl : numberedFlush 6 = _) (apart_flush 6))).step
    (.ring (i := 1) rfl)
  have hstart := hrung.step (.start (i := 1) rfl (rfl : _ = [(⟨1, false, 2⟩ : Bell)])
    (by decide) (by decide))
  have hfirst := ((hstart.step (.fetch rfl (by decide) rfl)).step
    (.execute rfl (rfl : dispatch serving 0 _ _ _ = _))).step (.post rfl)
  have hsecond := ((hfirst.step (.fetch rfl (by decide) rfl)).step
    (.execute rfl (rfl : dispatch serving 0 _ _ _ = _))).step (.post rfl)
  have hfinish := hsecond.step (.finish rfl (by decide))
  have htaken := (hfinish.step
    (.take (i := 1) rfl (rfl : (⟨0, 1, 1, 5, 1⟩ : NvmeCompletion) = _) rfl)).step
    (.take (i := 1) rfl (rfl : (⟨0, 2, 1, 6, 1⟩ : NvmeCompletion) = _) rfl)
  exact ⟨_, htaken, rfl, rfl, rfl⟩

theorem queue_pairs_fifo_two_flushes : Setup direct (· = 1) created serving ∧
    ∃ s, (queuePairs direct (· = 1) created serving).Reachable s ∧
      (s.pairs 1).taken.map (·.commandId) = [5, 6] ∧
      (s.pairs 1).done.map Prod.fst <+: (s.pairs 1).submitted ∧
      (∀ d ∈ (s.pairs 1).done, Ran serving d.1 d.2) ∧
      (s.pairs 1).taken <+: answersTo (created 1) (s.pairs 1).done ∧
      (s.pairs 1).done.length = (s.pairs 1).told := by
  obtain ⟨s, hs, hids, hpc, hring⟩ := exists_two_taken
  obtain ⟨hdone, hran, htaken, hidle⟩ := queue_pairs_fifo direct (· = 1) created serving
    setup_created s hs 1 rfl
  have hnone : ∀ b ∈ s.ring, b.queue = 1 → b.isCq = true := by
    intro b hb
    rw [hring] at hb
    cases hb
  exact ⟨setup_created, s, hs, hids, hdone, hran, htaken, (hidle hpc hnone).1⟩

end Example

end Pciem.Nvme.Fifo
