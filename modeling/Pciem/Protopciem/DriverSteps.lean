import Pciem.Protopciem.Invariant

namespace Pciem.Protopciem.DriverSteps

open Library.BitField Protopciem.Device Invariant

section Caller

variable {connected : Bool} {s : Machine} {t : Token} {call : Call} {ops : List Mmio}

theorem holds_call (h : Holds connected s t) (hcaller : s.caller = .out) (hcmd : call.cmd ≠ 0) :
    Holds connected { s with caller := .submitting call (submit call) } .before := by
  have hne (call' : Call) (ops : List Mmio) : s.caller ≠ .executing call' ops := by
    rw [hcaller]
    exact Caller.noConfusion
  rcases h.apart hne with rfl | rfl
  · exact { h with
      pending := by
        have hpending := h.pending
        rwa [hcaller] at hpending
      seen := fun ht ↦ by cases ht
      turn := ⟨h.turn.1, hcmd, submit_untouched call, loaded_written call s.bar0⟩ }
  · obtain ⟨call', hcall | hcall | hcall⟩ := h.turn.2.2
    all_goals
      rw [hcaller] at hcall
      cases hcall

theorem before_of_submitting (h : Holds connected s t) (hcaller : s.caller = .submitting call ops) :
    t = .before := by
  have hne (call' : Call) (ops' : List Mmio) : s.caller ≠ .executing call' ops' := by
    rw [hcaller]
    exact Caller.noConfusion
  rcases h.apart hne with rfl | rfl
  · rfl
  · obtain ⟨call', hcall | hcall | hcall⟩ := h.turn.2.2
    all_goals
      rw [hcaller] at hcall
      cases hcall

theorem holds_submit {op : Mmio} (h : Holds connected s t)
    (hcaller : s.caller = .submitting call (op :: ops)) :
    Holds connected { s.mmio op with caller := .submitting call ops } .before := by
  obtain rfl := before_of_submitting h hcaller
  obtain ⟨hzero, hprepares⟩ := h.turn
  rw [hcaller] at hprepares
  obtain ⟨hcmd, huntouched, hloaded⟩ := hprepares
  have hop (v : BitVec 32) : op ≠ .store .cmd v := fun heq ↦
    huntouched v (heq ▸ List.mem_cons_self)
  rw [mmio_eq]
  exact { h with
    pending := by
      have hpending := h.pending
      rwa [hcaller] at hpending
    head := head_append h _
    seen := fun ht ↦ by cases ht
    turn := ⟨(reach_cmd hop).trans hzero, hcmd,
      fun v hv ↦ huntouched v (List.mem_cons_of_mem op hv), hloaded⟩ }

theorem not_busy (h : Holds connected s t) (hcaller : s.caller = .submitting call ops) :
    s.operationPending = false := by
  obtain rfl := before_of_submitting h hcaller
  have hpending := h.pending
  rwa [hcaller] at hpending

theorem holds_enter (h : Holds connected s t) (hcaller : s.caller = .submitting call []) :
    Holds connected { s with
      caller := .executing call (execute call)
      operationPending := true
      opCompletion := false } .before := by
  obtain rfl := before_of_submitting h hcaller
  obtain ⟨hzero, hprepares⟩ := h.turn
  rw [hcaller] at hprepares
  obtain ⟨hcmd, -, hloaded⟩ := hprepares
  obtain ⟨early, hsplit, huntouched⟩ := execute_split call
  exact { h with
    completion := rfl
    pending := rfl
    seen := fun ht ↦ by cases ht
    turn := ⟨hzero, hcmd, early, hsplit, huntouched, hloaded⟩ }

/-- The caller stores what belongs to the command, or the command itself. -/
theorem holds_execute_before {op : Mmio} (h : Holds connected s .before)
    (hcaller : s.caller = .executing call (op :: ops)) :
    Inv connected { s.mmio op with caller := .executing call ops } := by
  obtain ⟨hzero, hprepares⟩ := h.turn
  rw [hcaller] at hprepares
  obtain ⟨hcmd, early, hsplit, huntouched, hloaded⟩ := hprepares
  have hpending := h.pending
  rw [hcaller] at hpending
  rw [mmio_eq]
  cases early with
  | nil =>
    cases hsplit
    refine ⟨.ring, { h with
      pending := hpending
      head := head_append h _
      seen := fun _ ↦ .inr ⟨call, rfl⟩
      turn := ⟨call, .inl rfl, hcmd, hloaded⟩ }⟩
  | cons first early =>
    cases hsplit
    have hop (v : BitVec 32) : op ≠ .store .cmd v := fun heq ↦
      huntouched v (heq ▸ List.mem_cons_self)
    refine ⟨.before, { h with
      pending := hpending
      head := head_append h _
      seen := fun ht ↦ by cases ht
      turn := ⟨(reach_cmd hop).trans hzero, hcmd, early, rfl,
        fun v hv ↦ huntouched v (List.mem_cons_of_mem op hv), hloaded⟩ }⟩

theorem mem_unseen_push (h : Holds connected s t) (r : Reg) :
    r ∈ unseen { s with ring := s.ring ++ [r] } := by
  unfold unseen
  dsimp only
  split
  · exact List.mem_append_right _ List.mem_cons_self
  · rename_i hpoll
    rw [List.tail_append_of_ne_nil (h.head hpoll)]
    exact List.mem_append_right _ List.mem_cons_self

/-- The caller raises the event of its command, which may have been answered already. -/
theorem holds_execute_flight {op : Mmio} (h : Holds connected s t) (hbefore : t ≠ .before)
    (hcaller : s.caller = .executing call (op :: ops)) :
    Holds connected { s.mmio op with caller := .executing call ops } t := by
  have hafter : t ≠ .after := by
    rintro rfl
    obtain ⟨call', hcall | hcall | hcall⟩ := h.turn.2.2
    all_goals
      rw [hcaller] at hcall
      cases hcall
  obtain ⟨call', hflight, hcmd, hrest⟩ := h.flight hbefore hafter
  rw [hcaller] at hflight
  rcases hflight with hpush | hwaits
  · cases hpush
    have hturn : Turn connected { s with
        caller := .executing call []
        ring := s.ring ++ [.cmd] } t := by
      cases t
      case before => exact absurd rfl hbefore
      case after => exact absurd rfl hafter
      all_goals exact ⟨call, .inr rfl, hcmd, hrest⟩
    have hpending := h.pending
    have hjobs := h.jobs
    unfold processed at hjobs
    rw [hcaller] at hpending hjobs
    exact { h with
      pending := by
        cases t
        all_goals exact hpending
      head := head_append h _
      seen := fun _ ↦ .inl (mem_unseen_push h .cmd)
      turn := hturn
      jobs := hjobs }
  · cases hwaits

theorem holds_wake (h : Holds connected s t) (hcaller : s.caller = .executing call [])
    (hdone : s.opCompletion = true) :
    Holds connected { s with caller := .woken call, opCompletion := false } .after := by
  obtain rfl := h.done_of hdone
  obtain ⟨call', hflight, -, hresult, hzero, hstatus⟩ := h.turn
  rw [hcaller] at hflight
  have hcall : call' = call := by
    rcases hflight with hpush | hwaits
    · cases hpush
    · cases hwaits
      rfl
  subst hcall
  have hjobs := h.jobs
  unfold processed at hjobs
  rw [hcaller] at hjobs
  exact { h with
    completion := rfl
    seen := fun ht ↦ by cases ht
    turn := ⟨hzero, hstatus, call', .woken rfl hresult⟩
    jobs := hjobs }

theorem after_of_concluding (h : Holds connected s t)
    (hcaller : ∀ ops, s.caller ≠ .executing call ops) (hcurrent : current s.caller = [call])
    (hsubmitting : ∀ ops, s.caller ≠ .submitting call ops) :
    t = .after ∧ s.bar0 .cmd = 0 ∧ s.bar0 .status = 0 ∧
      Concludes connected s.caller s.lastResult call := by
  have hne (call' : Call) (ops : List Mmio) : s.caller ≠ .executing call' ops := by
    intro heq
    rw [heq] at hcurrent
    cases hcurrent
    exact hcaller ops heq
  rcases h.apart hne with rfl | rfl
  · have hprepares := h.turn.2
    cases hcall : s.caller with
    | out =>
      rw [hcall] at hcurrent
      cases hcurrent
    | submitting call' ops =>
      rw [hcall] at hcurrent
      cases hcurrent
      exact absurd hcall (hsubmitting ops)
    | executing call' ops => exact absurd hcall (hne call' ops)
    | woken | fetched | closing =>
      rw [hcall] at hprepares
      exact hprepares.elim
  · obtain ⟨hzero, hstatus, call', hconcludes⟩ := h.turn
    have hcall : call' = call := by
      obtain hcall | hcall | hcall := hconcludes
      all_goals
        rw [hcall] at hcurrent
        cases hcurrent
        rfl
    exact ⟨rfl, hzero, hstatus, hcall ▸ hconcludes⟩

theorem holds_fetch (h : Holds connected s t) (hcaller : s.caller = .woken call) :
    Holds connected { s with caller := .fetched call s.lastResult } .after := by
  obtain ⟨rfl, hzero, hstatus, hconcludes⟩ := after_of_concluding h (by simp [hcaller])
    (by rw [hcaller]; rfl) (by simp [hcaller])
  have hjobs := h.jobs
  unfold processed at hjobs
  rw [hcaller] at hjobs hconcludes
  obtain ⟨-, hresult⟩ | hcall | hcall := hconcludes
  · exact { h with
      pending := h.pending
      seen := fun ht ↦ by cases ht
      turn := ⟨hzero, hstatus, call, .fetched (congrArg (Caller.fetched call) hresult)⟩
      jobs := hjobs }
  · cases hcall
  · cases hcall

/-- The status has been cleared, so that no error is seen. -/
theorem holds_check {result : BitVec 64} (h : Holds connected s t)
    (hcaller : s.caller = .fetched call result) :
    Holds connected { s with
      caller := .closing call
        (if s.bar0 .status &&& statusError ≠ 0 then .error .eio else .ok result)
        (pciWriteReg .control ctrlEnable) } .after := by
  obtain ⟨rfl, hzero, hstatus, hconcludes⟩ := after_of_concluding h (by simp [hcaller])
    (by rw [hcaller]; rfl) (by simp [hcaller])
  have hjobs := h.jobs
  unfold processed at hjobs
  rw [hcaller] at hjobs hconcludes
  obtain hcall | hcall | hcall := hconcludes
  · cases hcall
  · cases hcall
    have hclear : ¬ s.bar0 .status &&& statusError ≠ 0 := by
      rw [hstatus]
      decide
    rw [if_neg hclear]
    exact { h with
      pending := h.pending
      seen := fun ht ↦ by cases ht
      turn := ⟨hzero, hstatus, call, .closing rfl (List.suffix_refl _)⟩
      jobs := hjobs }
  · cases hcall

theorem holds_close {outcome : Except Failure (BitVec 64)} {op : Mmio} (h : Holds connected s t)
    (hcaller : s.caller = .closing call outcome (op :: ops)) :
    Holds connected { s.mmio op with caller := .closing call outcome ops } .after := by
  obtain ⟨rfl, hzero, hstatus, hconcludes⟩ := after_of_concluding h (by simp [hcaller])
    (by rw [hcaller]; rfl) (by simp [hcaller])
  have hjobs := h.jobs
  unfold processed at hjobs
  rw [hcaller] at hjobs hconcludes
  obtain hcall | hcall | @⟨ops', hcall, hops⟩ := hconcludes
  · cases hcall
  · cases hcall
  · cases hcall
    rw [mmio_eq]
    exact { h with
      pending := h.pending
      head := head_append h _
      seen := fun ht ↦ by cases ht
      turn := ⟨(reach_of_suffix hops (by decide)).trans hzero,
        (reach_of_suffix hops (by decide)).trans hstatus, call, .closing rfl (suffix_tail hops)⟩
      jobs := hjobs }

theorem holds_leave {outcome : Except Failure (BitVec 64)} (h : Holds connected s t)
    (hcaller : s.caller = .closing call outcome []) :
    Holds connected { s with
      caller := .out
      returned := s.returned ++ [(call, outcome)] } .before := by
  obtain ⟨rfl, hzero, hstatus, hconcludes⟩ := after_of_concluding h (by simp [hcaller])
    (by rw [hcaller]; rfl) (by simp [hcaller])
  have hjobs := h.jobs
  unfold processed at hjobs
  rw [hcaller] at hjobs hconcludes
  obtain hcall | hcall | hcall := hconcludes
  · cases hcall
  · cases hcall
  · cases hcall
    exact { h with
      pending := h.pending
      seen := fun ht ↦ by cases ht
      turn := ⟨hzero, trivial⟩
      jobs := by
        refine hjobs.trans (congrArg (jobsOf connected) ?_)
        unfold processed
        dsimp only
        rw [List.map_append]
        exact (List.append_nil _).symm
      returned := by
        intro r hr
        rcases List.mem_append.mp hr with hr | hr
        · exact h.returned r hr
        · cases List.mem_singleton.mp hr
          rfl }

end Caller

section Driver

variable {connected : Bool} {s : Machine} {t : Token} {ops : List Mmio}

theorem holds_interrupt (h : Holds connected s t) (hirq : s.irq = true) :
    Holds connected { s with
      irq := false
      handler := if s.bar0 .status &&& (statusDone ||| statusError) = 0 then .idle
        else .writing (pciWriteReg .status 0) } .handler := by
  obtain rfl := h.irq_of hirq
  obtain ⟨call, hflight, hcmd, hanswered, hstatus⟩ := h.turn
  rw [if_neg hstatus]
  exact { h with
    irq := rfl
    handler := fun ht ↦ by cases ht
    seen := fun ht ↦ by cases ht
    turn := ⟨call, hflight, hcmd, hanswered, _, rfl, .inl rfl⟩ }

theorem holds_handle {op : Mmio} (h : Holds connected s t)
    (hhandler : s.handler = .writing (op :: ops)) :
    Holds connected { s.mmio op with handler := .writing ops } .handler := by
  obtain rfl := h.handler_of hhandler
  obtain ⟨call, hflight, hcmd, hanswered, ops', hops', hops⟩ := h.turn
  rw [hhandler] at hops'
  cases hops'
  rw [mmio_eq]
  have hturn : Answered connected call (reach s.bar0 op) ∧
      ops <:+ [.push .status] ∧ reach s.bar0 op .status = 0 := by
    rcases hops with hops | ⟨hops, hstatus⟩
    · cases hops
      exact ⟨⟨hanswered.cmd, hanswered.result⟩, List.suffix_refl _, rfl⟩
    · rcases List.suffix_cons_iff.mp hops with hops | hops
      · cases hops
        exact ⟨hanswered, List.nil_suffix, hstatus⟩
      · cases List.suffix_nil.mp hops
  exact { h with
    handler := fun ht ↦ by cases ht
    head := head_append h _
    seen := fun ht ↦ by cases ht
    turn := ⟨call, hflight, hcmd, hturn.1, ops, rfl, .inr hturn.2⟩ }

theorem holds_queueWork (h : Holds connected s t) (hhandler : s.handler = .writing []) :
    Holds connected { s with handler := .idle, queued := true } .queued := by
  obtain rfl := h.handler_of hhandler
  obtain ⟨call, hflight, hcmd, hanswered, ops', hops', hops⟩ := h.turn
  rw [hhandler] at hops'
  cases hops'
  rcases hops with hops | ⟨-, hstatus⟩
  · cases hops
  · exact { h with
      queued := rfl
      handler := fun _ ↦ rfl
      seen := fun ht ↦ by cases ht
      turn := ⟨call, hflight, hcmd, hanswered, hstatus⟩ }

theorem holds_startWork (h : Holds connected s t) (hqueued : s.queued = true) :
    Holds connected { s with
      queued := false
      work := if s.operationPending then .readLo else .idle } .work := by
  obtain rfl := h.queued_of hqueued
  obtain ⟨call, hflight, hcmd, hanswered, hstatus⟩ := h.turn
  have hpending : s.operationPending = true := h.pending
  rw [if_pos hpending]
  exact { h with
    queued := rfl
    work := fun ht ↦ by cases ht
    seen := fun ht ↦ by cases ht
    turn := ⟨call, hflight, hcmd, .readLo hanswered, hstatus⟩ }

theorem holds_readLo (h : Holds connected s t) (hwork : s.work = .readLo) :
    Holds connected { s with work := .readHi (s.bar0 .resultLo) } .work := by
  obtain rfl := h.work_of (by rw [hwork]; exact Work.noConfusion)
  obtain ⟨call, hflight, hcmd, hworks, hstatus⟩ := h.turn
  rw [hwork] at hworks
  cases hworks with
  | readLo hanswered =>
    exact { h with
      work := fun ht ↦ by cases ht
      seen := fun ht ↦ by cases ht
      turn := ⟨call, hflight, hcmd, .readHi hanswered, hstatus⟩ }

theorem holds_readHi {lo : BitVec 32} (h : Holds connected s t) (hwork : s.work = .readHi lo) :
    Holds connected { s with
      lastResult := s.bar0 .resultHi ++ lo
      work := .writing (pciWriteReg .cmd 0) } .work := by
  obtain rfl := h.work_of (by rw [hwork]; exact Work.noConfusion)
  obtain ⟨call, hflight, hcmd, hworks, hstatus⟩ := h.turn
  rw [hwork] at hworks
  cases hworks with
  | readHi hanswered =>
    exact { h with
      work := fun ht ↦ by cases ht
      seen := fun ht ↦ by cases ht
      turn := ⟨call, hflight, hcmd,
        .writing (List.suffix_refl _) hanswered.cmd hanswered.result, hstatus⟩ }

theorem holds_work {op : Mmio} (h : Holds connected s t) (hwork : s.work = .writing (op :: ops)) :
    Holds connected { s.mmio op with work := .writing ops } .work := by
  obtain rfl := h.work_of (by rw [hwork]; exact Work.noConfusion)
  obtain ⟨call, hflight, hcmd, hworks, hstatus⟩ := h.turn
  rw [hwork] at hworks
  cases hworks with
  | writing hops hzero hresult =>
    have hreached : reach s.bar0 op .cmd = 0 := by
      rcases suffix_cases hops with ⟨rfl, -⟩ | ⟨rfl, -⟩
      · rfl
      · exact hzero
    rw [mmio_eq]
    exact { h with
      work := fun ht ↦ by cases ht
      head := head_append h _
      seen := fun ht ↦ by cases ht
      turn := ⟨call, hflight, hcmd, .writing (suffix_tail hops) hreached hresult,
        (reach_of_suffix hops (by decide)).trans hstatus⟩ }

theorem holds_complete (h : Holds connected s t) (hwork : s.work = .writing []) :
    Holds connected { s with
      work := .idle
      operationPending := false
      opCompletion := true } .done := by
  obtain rfl := h.work_of (by rw [hwork]; exact Work.noConfusion)
  obtain ⟨call, hflight, hcmd, hworks, hstatus⟩ := h.turn
  rw [hwork] at hworks
  cases hworks with
  | writing hops hzero hresult =>
    exact { h with
      completion := rfl
      pending := rfl
      work := fun _ ↦ rfl
      seen := fun ht ↦ by cases ht
      turn := ⟨call, hflight, hcmd, hresult, hzero, hstatus⟩ }

end Driver

end Pciem.Protopciem.DriverSteps
