import Pciem.Protopciem.Invariant

namespace Pciem.Protopciem.BackendSteps

open Library.BitField Protopciem.Device Invariant

section Copies

variable {regs bar0 : Regs} {r q : Reg} {v : BitVec 32} {done rest : List Reg}

theorem backendWrite_self (regs : Regs) (r : Reg) (v : BitVec 32) :
    backendWrite regs r v r = v := by
  cases r
  case control =>
    unfold backendWrite
    dsimp only
    split_ifs
    all_goals rfl
  all_goals rfl

theorem backendWrite_of_ne (hq : q ≠ r) (hstatus : q ≠ .status) (hcontrol : r ≠ .control) :
    backendWrite regs r v q = regs q := by
  cases r
  case control => exact absurd rfl hcontrol
  case cmd => exact (Function.update_of_ne hstatus ..).trans (Function.update_of_ne hq ..)
  all_goals exact Function.update_of_ne hq ..

theorem backendWrite_result (regs : Regs) (v : BitVec 32) (hlo : r ≠ .resultLo)
    (hhi : r ≠ .resultHi) : backendWrite regs r v .resultLo = regs .resultLo ∧
      backendWrite regs r v .resultHi = regs .resultHi := by
  by_cases hcontrol : r = .control
  · subst hcontrol
    unfold backendWrite
    dsimp only
    split_ifs
    all_goals exact ⟨rfl, rfl⟩
  · exact ⟨backendWrite_of_ne hlo.symm (by decide) hcontrol,
      backendWrite_of_ne hhi.symm (by decide) hcontrol⟩

theorem forwarded_concat : forwarded = forwarded.dropLast ++ [.cmd] := rfl

theorem not_mem_done (hlist : forwarded = done ++ r :: rest) : r ∉ done ∧ r ∉ rest := by
  have hnodup : (done ++ r :: rest).Nodup := hlist ▸ (by decide : forwarded.Nodup)
  rw [List.nodup_middle, List.nodup_cons, List.mem_append, not_or] at hnodup
  exact hnodup.1

theorem mem_forwarded (hlist : forwarded = done ++ r :: rest) : r ∈ forwarded := by
  rw [hlist]
  exact List.mem_append_right _ List.mem_cons_self

theorem rest_eq_nil_iff (hlist : forwarded = done ++ r :: rest) : rest = [] ↔ r = .cmd := by
  constructor
  · rintro rfl
    rw [forwarded_concat] at hlist
    exact (List.append_inj_right' hlist rfl |> List.singleton_inj.mp).symm
  · rintro rfl
    rcases List.eq_nil_or_concat' rest with rfl | ⟨init, last, rfl⟩
    · rfl
    · rw [forwarded_concat, ← List.cons_append, ← List.append_assoc] at hlist
      have hlast := List.singleton_inj.mp (List.append_inj_right' hlist rfl)
      rw [List.append_assoc, ← forwarded_concat] at hlist
      exact absurd (List.mem_append_right init (hlast ▸ List.mem_cons_self))
        (not_mem_done hlist).2

theorem copied_backendWrite (hlist : forwarded = done ++ r :: rest)
    (hcopied : Copied regs bar0 done) :
    Copied (backendWrite regs r (bar0 r)) bar0 (done ++ [r]) := by
  have hfresh := (not_mem_done hlist).1
  intro q hq
  rcases List.mem_append.mp hq with hdone | hlast
  · have hne : q ≠ r := fun heq ↦ hfresh (heq ▸ hdone)
    have hmem : q ∈ forwarded := hlist ▸ List.mem_append_left _ hdone
    have hstatus : q ≠ .status := by
      rintro rfl
      revert hmem
      decide
    have hcontrol : r ≠ .control := by
      intro heq
      cases done with
      | nil => cases hdone
      | cons first done =>
        have hfirst : first = .control := (List.cons.inj hlist).1.symm
        exact hfresh (heq.trans hfirst.symm ▸ List.mem_cons_self)
    rw [backendWrite_of_ne hne hstatus hcontrol]
    exact hcopied q hdone
  · cases List.mem_singleton.mp hlast
    exact backendWrite_self regs r (bar0 r)

theorem jobOf_copied {call : Call} (hcopied : Copied regs bar0 forwarded)
    (hloaded : Loaded call bar0) (hmoves : Moves call.cmd) :
    jobOf regs = ⟨call.cmd, call.src, call.len⟩ := by
  have hsrc : srcAddr regs = srcAddr bar0 := by
    unfold srcAddr
    rw [hcopied .dmaSrcHi (by decide), hcopied .dmaSrcLo (by decide)]
  unfold jobOf
  rw [hcopied .cmd (by decide), hcopied .dmaLen (by decide), hsrc, hloaded.cmd,
    hloaded.src hmoves, hloaded.len hmoves]

end Copies

section Backend

variable {connected : Bool} {s : Machine} {t : Token}

/-- The socket shows that the card leaves the command to the backend. -/
theorem relays_of_link (h : Holds connected s t) (hacking : ¬ Acking (link s))
    (hraises : ¬ Raises (link s)) : t = .forward ∧ ∃ call, InFlight s.caller call ∧ call.cmd ≠ 0 ∧
      Forwards connected call.cmd ∧ Loaded call s.bar0 ∧
        Relays s.regs s.bar0 s.card (link s) := by
  have hturn := h.turn
  cases t
  case forward => exact ⟨rfl, hturn⟩
  case card =>
    obtain ⟨call, -, -, hcalm, -⟩ := hturn
    exact absurd (hcalm ▸ .seen) hacking
  case raised =>
    obtain ⟨call, -, -, -, -, hraises'⟩ := hturn
    exact absurd hraises' hraises
  case storing =>
    obtain ⟨call, -, -, -, hacking', -⟩ := hturn
    exact absurd hacking' hacking
  all_goals exact absurd (h.aside rfl).acking hacking

/-- Something is on its way to the backend, or the backend waits for the bytes of a DMA. -/
theorem relays_of_busy (h : Holds connected s t) (hbusy : s.toQemu ≠ [] ∨ s.backend = .dma) :
    t = .forward ∧ ∃ call, InFlight s.caller call ∧ call.cmd ≠ 0 ∧ Forwards connected call.cmd ∧
      Loaded call s.bar0 ∧ Relays s.regs s.bar0 s.card (link s) := by
  have hlink : (link s).1 ≠ [] ∨ (link s).2.2.1 = .dma := hbusy
  apply relays_of_link h
  all_goals generalize link s = l at hlink
  · intro hacking
    cases hacking
    all_goals
      rcases hlink with hlink | hlink
      · exact hlink rfl
      · cases hlink
  · intro hraises
    cases hraises
    all_goals
      rcases hlink with hlink | hlink
      · exact hlink rfl
      · cases hlink

theorem holds_register {r : Reg} {v : BitVec 32} {toQemu : List ToQemu} (h : Holds connected s t)
    (hqemu : s.toQemu = .write r v :: toQemu) (hr : r ≠ .cmd) :
    Holds connected { s with
      toQemu
      regs := backendWrite s.regs r v
      backend := .acking } .forward := by
  obtain ⟨rfl, call, hflight, hcmd, hforwards, hloaded, hrelays⟩ :=
    relays_of_busy h (.inl (by rw [hqemu]; exact List.cons_ne_nil _ _))
  have hlink : (link s).1 = .write r v :: toQemu := hqemu
  have hrelays' : r ∈ forwarded ∧ Relays (backendWrite s.regs r v) s.bar0 s.card
      (toQemu, (link s).2.1, .acking, (link s).2.2.2) := by
    generalize s.card = card at hrelays
    generalize link s = l at hrelays hlink
    cases hrelays with
    | reading | sending | asked | exited => cases hlink
    | fed => cases hlink
    | taken hlist hcopied hacking =>
      cases hacking
      all_goals cases hlink
    | @sent r' done rest hlist hcopied =>
      cases hlink
      refine ⟨mem_forwarded hlist, ?_⟩
      cases rest with
      | nil => exact absurd ((rest_eq_nil_iff hlist).mp rfl) hr
      | cons next rest =>
        exact .taken (by rw [hlist, List.append_assoc, List.singleton_append])
          (copied_backendWrite hlist hcopied) .due
  have hlo : r ≠ .resultLo := fun heq ↦ absurd (heq ▸ hrelays'.1) (by decide)
  have hhi : r ≠ .resultHi := fun heq ↦ absurd (heq ▸ hrelays'.1) (by decide)
  obtain ⟨hlo, hhi⟩ := backendWrite_result s.regs v hlo hhi
  exact { h with
    aside := fun ht ↦ by cases ht
    seen := fun ht ↦ by cases ht
    turn := ⟨call, hflight, hcmd, hforwards, hloaded, hrelays'.2⟩
    result := by
      dsimp only
      rw [hlo, hhi]
      exact h.result }

/-- The store of the command has reached the backend, with all that belongs to it. -/
theorem sent_cmd {v : BitVec 32} {toQemu : List ToQemu} {card : Card} {l : Link}
    {regs bar0 : Regs} (h : Relays regs bar0 card l) (hlink : l.1 = .write .cmd v :: toQemu) :
    card = .await [] ∧ l = ([.write .cmd v], [], .idle, true) ∧ toQemu = [] ∧ v = bar0 .cmd ∧
      Copied (backendWrite regs .cmd v) bar0 forwarded := by
  cases h with
  | reading | sending | asked | exited => cases hlink
  | fed => cases hlink
  | taken hlist hcopied hacking =>
    cases hacking
    all_goals cases hlink
  | @sent r' done rest hlist hcopied =>
    cases hlink
    obtain rfl := (rest_eq_nil_iff hlist).mpr rfl
    refine ⟨rfl, rfl, rfl, rfl, ?_⟩
    rw [hlist]
    exact copied_backendWrite hlist hcopied

theorem holds_command {v : BitVec 32} {toQemu : List ToQemu} {len : BitVec 32}
    (h : Holds connected s t) (hqemu : s.toQemu = .write .cmd v :: toQemu) :
    Holds connected { s with
      toQemu
      regs := backendWrite s.regs .cmd v
      toCard := s.toCard ++ [.dmaRead (srcAddr s.regs) len]
      backend := .dma } .forward := by
  obtain ⟨rfl, call, hflight, hcmd, hforwards, hloaded, hrelays⟩ :=
    relays_of_busy h (.inl (by rw [hqemu]; exact List.cons_ne_nil _ _))
  obtain ⟨hcard, hlink, rfl, -, hcopied⟩ := sent_cmd hrelays hqemu
  obtain ⟨hlo, hhi⟩ := backendWrite_result (r := .cmd) s.regs v (by decide) (by decide)
  have hrelays' : Relays (backendWrite s.regs .cmd v) s.bar0 s.card
      ([], (link s).2.1 ++ [.dmaRead (srcAddr s.regs) len], .dma, (link s).2.2.2) := by
    rw [hcard, hlink]
    exact .asked hcopied
  exact { h with
    aside := fun ht ↦ by cases ht
    seen := fun ht ↦ by cases ht
    turn := ⟨call, hflight, hcmd, hforwards, hloaded, hrelays'⟩
    result := by
      dsimp only
      rw [hlo, hhi]
      exact h.result }

theorem holds_refuse {v : BitVec 32} {toQemu : List ToQemu} (h : Holds connected s t)
    (hqemu : s.toQemu = .write .cmd v :: toQemu) :
    Holds connected { s with toQemu, backend := .exited } .forward := by
  obtain ⟨rfl, call, hflight, hcmd, hforwards, hloaded, hrelays⟩ :=
    relays_of_busy h (.inl (by rw [hqemu]; exact List.cons_ne_nil _ _))
  obtain ⟨hcard, hlink, rfl, -, -⟩ := sent_cmd hrelays hqemu
  have hrelays' : Relays s.regs s.bar0 s.card ([], (link s).2.1, .exited, (link s).2.2.2) := by
    rw [hcard, hlink]
    exact .exited
  exact { h with
    aside := fun ht ↦ by cases ht
    seen := fun ht ↦ by cases ht
    turn := ⟨call, hflight, hcmd, hforwards, hloaded, hrelays'⟩ }

theorem fed_dma {card : Card} {l : Link} {regs bar0 : Regs} (h : Relays regs bar0 card l)
    (hbackend : l.2.2.1 = .dma) (hqemu : l.1 ≠ []) : card = .await [] ∧
      (∃ ok, l = ([.response ok], [], .dma, true)) ∧ Copied regs bar0 forwarded := by
  cases h with
  | reading | sending | sent | exited => cases hbackend
  | taken hlist hcopied hacking =>
    cases hacking
    all_goals cases hbackend
  | asked => exact absurd rfl hqemu
  | @fed ok hcopied => exact ⟨rfl, ⟨ok, rfl⟩, hcopied⟩

theorem holds_process {ok : Bool} {toQemu : List ToQemu} (h : Holds connected s t)
    (hbackend : s.backend = .dma) (hqemu : s.toQemu = .response ok :: toQemu) :
    Holds connected { s with
      toQemu
      regs := backendComplete s.regs
      jobs := s.jobs ++ [jobOf s.regs]
      toCard := s.toCard ++ [.raiseIrq (backendComplete s.regs .status)
        (s.regs .resultHi ++ s.regs .resultLo)]
      backend := .acking } .raised := by
  have hne : s.toQemu ≠ [] := by
    rw [hqemu]
    exact List.cons_ne_nil _ _
  obtain ⟨rfl, call, hflight, hcmd, hforwards, hloaded, hrelays⟩ := relays_of_busy h (.inl hne)
  obtain ⟨hcard, ⟨ok', hlink⟩, hcopied⟩ := fed_dma hrelays hbackend hne
  have htoQemu : toQemu = [] := by
    have hfirst : s.toQemu = [.response ok'] := congrArg Prod.fst hlink
    rw [hqemu] at hfirst
    exact (List.cons.inj hfirst).2
  subst htoQemu
  have hraises : Raises ([], (link s).2.1 ++ [.raiseIrq (backendComplete s.regs .status)
      (s.regs .resultHi ++ s.regs .resultLo)], .acking, (link s).2.2.2) := by
    rw [hlink, h.result]
    exact .due (backendComplete_status s.regs)
  exact { h with
    aside := fun ht ↦ by cases ht
    seen := fun ht ↦ by cases ht
    turn := ⟨call, hflight, hcmd, hforwards, hcard, hraises⟩
    jobs := by
      refine Eq.trans ?_ (congrArg (jobsOf connected) (processed_of_flight rfl hflight).symm)
      dsimp only
      rw [h.jobs, processed_of_not rfl, jobsOf_append _ hforwards,
        jobOf_copied hcopied hloaded hforwards.2] }

theorem holds_crash {toQemu : List ToQemu} (h : Holds connected s t) (hbackend : s.backend = .dma)
    (hqemu : s.toQemu = .response true :: toQemu) :
    Holds connected { s with toQemu, backend := .exited } .forward := by
  have hne : s.toQemu ≠ [] := by
    rw [hqemu]
    exact List.cons_ne_nil _ _
  obtain ⟨rfl, call, hflight, hcmd, hforwards, hloaded, hrelays⟩ := relays_of_busy h (.inl hne)
  obtain ⟨hcard, ⟨ok, hlink⟩, -⟩ := fed_dma hrelays hbackend hne
  have htoQemu : toQemu = [] := by
    have hfirst : s.toQemu = [.response ok] := congrArg Prod.fst hlink
    rw [hqemu] at hfirst
    exact (List.cons.inj hfirst).2
  subst htoQemu
  have hrelays' : Relays s.regs s.bar0 s.card ([], (link s).2.1, .exited, (link s).2.2.2) := by
    rw [hcard, hlink]
    exact .exited
  exact { h with
    aside := fun ht ↦ by cases ht
    seen := fun ht ↦ by cases ht
    turn := ⟨call, hflight, hcmd, hforwards, hloaded, hrelays'⟩ }

/-- The backend never takes a message for one of another kind. -/
theorem not_misread {ok : Bool} {toQemu : List ToQemu} (h : Holds connected s t)
    (hbackend : s.backend = .idle) (hqemu : s.toQemu = .response ok :: toQemu) : False := by
  obtain ⟨-, call, -, -, -, -, hrelays⟩ :=
    relays_of_busy h (.inl (by rw [hqemu]; exact List.cons_ne_nil _ _))
  have hlink : (link s).1 = .response ok :: toQemu := hqemu
  have hidle : (link s).2.2.1 = .idle := hbackend
  generalize s.card = card at hrelays
  generalize link s = l at hrelays hlink hidle
  cases hrelays with
  | reading | sending | sent | asked | exited => cases hlink
  | fed => cases hidle
  | taken hlist hcopied hacking =>
    cases hacking
    all_goals cases hlink

theorem not_misread_dma {r : Reg} {v : BitVec 32} {toQemu : List ToQemu}
    (h : Holds connected s t) (hbackend : s.backend = .dma)
    (hqemu : s.toQemu = .write r v :: toQemu) : False := by
  have hne : s.toQemu ≠ [] := by
    rw [hqemu]
    exact List.cons_ne_nil _ _
  obtain ⟨-, call, -, -, -, -, hrelays⟩ := relays_of_busy h (.inl hne)
  obtain ⟨-, ⟨ok, hlink⟩, -⟩ := fed_dma hrelays hbackend hne
  have hfirst : s.toQemu = [.response ok] := congrArg Prod.fst hlink
  rw [hqemu] at hfirst
  cases hfirst

end Backend

section QemuThread

variable {connected : Bool} {s : Machine} {t : Token}

theorem holds_respond {addr : BitVec 64} {len : BitVec 32} {toCard : List ToCard} (ok : Bool)
    (h : Holds connected s t) (hcard : s.toCard = .dmaRead addr len :: toCard) :
    Holds connected { s with toCard, toQemu := s.toQemu ++ [.response ok] } .forward := by
  have hlink : (link s).2.1 = .dmaRead addr len :: toCard := hcard
  obtain ⟨rfl, call, hflight, hcmd, hforwards, hloaded, hrelays⟩ := relays_of_link h (by
    generalize link s = l at hlink
    intro hacking
    cases hacking
    all_goals cases hlink) (by
    generalize link s = l at hlink
    intro hraises
    cases hraises
    all_goals cases hlink)
  have hrelays' : Relays s.regs s.bar0 s.card
      ((link s).1 ++ [.response ok], toCard, (link s).2.2.1, (link s).2.2.2) := by
    generalize s.card = card at hrelays
    generalize link s = l at hrelays hlink
    cases hrelays with
    | reading | sending | sent | fed | exited => cases hlink
    | taken hlist hcopied hacking =>
      cases hacking
      all_goals cases hlink
    | asked hcopied =>
      cases hlink
      exact .fed hcopied
  exact { h with
    aside := fun ht ↦ by cases ht
    seen := fun ht ↦ by cases ht
    turn := ⟨call, hflight, hcmd, hforwards, hloaded, hrelays'⟩ }

theorem holds_raise {status : BitVec 32} {result : BitVec 64} {toCard : List ToCard}
    (h : Holds connected s t) (hcard : s.toCard = .raiseIrq status result :: toCard) :
    Holds connected { s with toCard, qemuThread := .storing (qemuStores status result) }
      .storing := by
  have hlink : (link s).2.1 = .raiseIrq status result :: toCard := hcard
  have hacking : ¬ Acking (link s) := by
    generalize link s = l at hlink
    intro hacking
    cases hacking
    all_goals cases hlink
  have hturn := h.turn
  cases t
  case raised =>
    obtain ⟨call, hflight, hcmd, hforwards, hawait, hraises⟩ := hturn
    have hacks : status &&& (statusDone ||| statusError) ≠ 0 ∧ result = 0 ∧
        Acking ((link s).1, toCard, (link s).2.2.1, (link s).2.2.2) ∧ (link s).2.2.2 = true := by
      generalize link s = l at hraises hlink
      cases hraises with
      | due hstatus =>
        cases hlink
        exact ⟨hstatus, rfl, .due, rfl⟩
      | sent hstatus =>
        cases hlink
        exact ⟨hstatus, rfl, .sent, rfl⟩
    obtain ⟨hstatus, rfl, hacks, hwaiting⟩ := hacks
    obtain ⟨hanswered, hsettled⟩ := answered_qemuStores s.bar0 hforwards status
    exact { h with
      qemuThread := fun ht ↦ by cases ht
      aside := fun ht ↦ by cases ht
      seen := fun ht ↦ by cases ht
      turn := ⟨call, hflight, hcmd, hawait, hacks, hwaiting, _, rfl, hanswered,
        hsettled ▸ hstatus⟩ }
  case card =>
    obtain ⟨call, -, -, hcalm, -⟩ := hturn
    exact absurd (hcalm ▸ .seen) hacking
  case forward =>
    obtain ⟨call, -, -, -, -, hrelays⟩ := hturn
    generalize s.card = card at hrelays
    generalize link s = l at hrelays hlink hacking
    cases hrelays with
    | reading | sending | sent | asked | fed | exited => cases hlink
    | taken hlist hcopied hacking' => exact absurd hacking' hacking
  case storing =>
    obtain ⟨call, -, -, -, hacking', -⟩ := hturn
    exact absurd hacking' hacking
  all_goals exact absurd (h.aside rfl).acking hacking

theorem holds_storeAnswer {r : Reg} {v : BitVec 32} {stores : List (Reg × BitVec 32)}
    (h : Holds connected s t) (hthread : s.qemuThread = .storing ((r, v) :: stores)) :
    Holds connected { s.store r v with qemuThread := .storing stores } .storing := by
  obtain rfl := h.qemuThread_of hthread
  obtain ⟨call, hflight, hcmd, hcard, hacking, hwaiting, stores', hstores, hsettled⟩ := h.turn
  rw [hthread] at hstores
  cases hstores
  exact { h with
    qemuThread := fun ht ↦ by cases ht
    aside := fun ht ↦ by cases ht
    seen := fun ht ↦ by cases ht
    turn := ⟨call, hflight, hcmd, hcard, hacking, hwaiting, stores, rfl, hsettled⟩ }

theorem holds_injectAnswer (h : Holds connected s t) (hthread : s.qemuThread = .storing []) :
    Holds connected { s with qemuThread := .idle, irq := true } .irq := by
  obtain rfl := h.qemuThread_of hthread
  obtain ⟨call, hflight, hcmd, hcard, hacking, hwaiting, stores', hstores, hsettled⟩ := h.turn
  rw [hthread] at hstores
  cases hstores
  have haside : Aside s.card (link s) := hcard ▸ .await hacking
  exact { h with
    irq := rfl
    qemuThread := fun _ ↦ rfl
    aside := fun _ ↦ haside
    seen := fun ht ↦ by cases ht
    turn := ⟨call, hflight, hcmd, hsettled⟩ }

end QemuThread

end Pciem.Protopciem.BackendSteps
