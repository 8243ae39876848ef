import Pciem.Protopciem.Invariant

namespace Pciem.Protopciem.CardSteps

open Library.BitField Protopciem.Device Invariant

section Aside

variable {connected : Bool} {s : Machine} {t : Token}

/-- The thread of the events goes on with what is not the command under way. -/
theorem holds_aside (h : Holds connected s t) (ht : t.engages = false) {card : Card}
    {ring : List Reg} {toCard : List ToCard} {backend : Backend} {waitingForAck : Bool}
    (haside : Aside card (s.toQemu, toCard, backend, waitingForAck))
    (hhead : card ≠ .poll → ring ≠ [])
    (hseen : t = .ring → .cmd ∈ unseen s →
      .cmd ∈ unseen { s with card, ring, toCard, backend, waitingForAck }) :
    Holds connected { s with card, ring, toCard, backend, waitingForAck } t := by
  have hturn : Turn connected { s with card, ring, toCard, backend, waitingForAck } t := by
    cases t
    case card | forward | raised | storing => cases ht
    all_goals exact h.turn
  exact { h with
    aside := fun _ ↦ haside
    head := hhead
    seen := fun hring ↦ (h.seen hring).imp_left (hseen hring)
    turn := hturn }

/-- The card is at a point where it has nothing to do with the command. -/
theorem disengaged (h : Holds connected s t)
    (hexecutes : ∀ call, ¬ Executes connected s.bar0 call s.card)
    (hrelays : ¬ Relays s.regs s.bar0 s.card (link s)) (hawait : s.card ≠ .await []) :
    t.engages = false := by
  have hturn := h.turn
  cases t
  case card =>
    obtain ⟨call, -, -, -, hexecutes'⟩ := hturn
    exact absurd hexecutes' (hexecutes call)
  case forward =>
    obtain ⟨call, -, -, -, -, hrelays'⟩ := hturn
    exact absurd hrelays' hrelays
  case raised =>
    obtain ⟨call, -, -, -, hcard, -⟩ := hturn
    exact absurd hcard hawait
  case storing =>
    obtain ⟨call, -, -, hcard, -⟩ := hturn
    exact absurd hcard hawait
  all_goals rfl

theorem disengaged_of_poll (h : Holds connected s t) (hcard : s.card = .poll) :
    t.engages = false := by
  apply disengaged h
  all_goals rw [hcard]
  · intro call hexecutes
    cases hexecutes
  · intro hrelays
    cases hrelays
  · exact Card.noConfusion

theorem disengaged_of_popping (h : Holds connected s t) (hcard : s.card = .popping) :
    t.engages = false := by
  apply disengaged h
  all_goals rw [hcard]
  · intro call hexecutes
    cases hexecutes
  · intro hrelays
    cases hrelays
  · exact Card.noConfusion

theorem calm_of_poll (h : Holds connected s t) (hcard : s.card = .poll ∨ s.card = .popping) :
    link s = calm := by
  have haside := h.aside (hcard.elim (disengaged_of_poll h) (disengaged_of_popping h))
  generalize link s = l at haside
  rcases hcard with hcard | hcard
  all_goals
    rw [hcard] at haside
    cases haside
    rfl

theorem holds_drop {r : Reg} {ring : List Reg} (h : Holds connected s t) (hcard : s.card = .poll)
    (hring : s.ring = r :: ring) (hr : r ≠ .cmd) :
    Holds connected { s with card := .popping } t := by
  have hlink := calm_of_poll h (.inl hcard)
  refine holds_aside h (disengaged_of_poll h hcard)
    ((congrArg (Aside .popping) hlink).mpr .popping) (fun _ ↦ ?_) fun _ hmem ↦ ?_
  · rw [hring]
    exact List.cons_ne_nil r ring
  · unfold unseen at hmem ⊢
    rw [hcard, hring] at hmem
    rw [hring]
    exact (List.mem_cons.mp hmem).resolve_left hr.symm

theorem cmd_eq_zero (h : Holds connected s t) (hengages : t.engages = false) (hring : t ≠ .ring) :
    s.bar0 .cmd = 0 := by
  have hturn := h.turn
  cases t
  case card | forward | raised | storing => cases hengages
  case ring => exact absurd rfl hring
  case before | after => exact hturn.1
  case work =>
    obtain ⟨call, -, -, hworks, -⟩ := hturn
    generalize s.work = work at hworks
    obtain hanswered | hanswered | ⟨-, hcmd⟩ := hworks
    exacts [hanswered.cmd, hanswered.cmd, hcmd]
  case done =>
    obtain ⟨call, -, -, -, hcmd, -⟩ := hturn
    exact hcmd
  all_goals
    obtain ⟨call, -, -, hanswered, -⟩ := hturn
    exact hanswered.cmd

theorem inv_test {ring : List Reg} (h : Holds connected s t) (hcard : s.card = .poll)
    (hring : s.ring = .cmd :: ring) :
    Inv connected { s with
      card := if s.bar0 .cmd = 0 then .popping else .took (s.bar0 .cmd) } := by
  have hlink := calm_of_poll h (.inl hcard)
  have hengages := disengaged_of_poll h hcard
  have hhead : s.ring ≠ [] := by
    rw [hring]
    exact List.cons_ne_nil .cmd ring
  by_cases hzero : s.bar0 .cmd = 0
  · rw [if_pos hzero]
    refine ⟨t, holds_aside h hengages ((congrArg (Aside .popping) hlink).mpr .popping)
      (fun _ ↦ hhead) ?_⟩
    rintro rfl
    obtain ⟨call, -, hcmd, hloaded⟩ := h.turn
    exact absurd (hloaded.cmd.symm.trans hzero) hcmd
  · rw [if_neg hzero]
    obtain rfl : t = .ring := by
      by_contra hne
      exact hzero (cmd_eq_zero h hengages hne)
    obtain ⟨call, hflight, hcmd, hloaded⟩ := h.turn
    rw [hloaded.cmd]
    exact ⟨.card, { h with
      aside := fun ht ↦ by cases ht
      head := fun _ ↦ hhead
      seen := fun ht ↦ by cases ht
      turn := ⟨call, hflight, hcmd, hlink, .took hloaded⟩ }⟩

theorem holds_pop (h : Holds connected s t) (hcard : s.card = .popping) :
    Holds connected { s with card := .poll, ring := s.ring.tail } t := by
  have hlink := calm_of_poll h (.inr hcard)
  refine holds_aside h (disengaged_of_popping h hcard)
    ((congrArg (Aside .poll) hlink).mpr .poll) (fun hpoll ↦ absurd rfl hpoll) fun _ hmem ↦ ?_
  unfold unseen at hmem
  rw [hcard] at hmem
  exact hmem

theorem head_of (h : Holds connected s t) {card : Card} (hcard : s.card = card)
    (hpoll : card ≠ .poll) : s.ring ≠ [] :=
  h.head (hcard ▸ hpoll)

/-- The answer to the last write of a command that has been answered already. -/
theorem holds_last (h : Holds connected s t) (hcard : s.card = .await [])
    (hack : s.waitingForAck = false) : Holds connected { s with card := .popping } t := by
  have hlink : (link s).2.2.2 = false := hack
  have hengages : t.engages = false := by
    have hturn := h.turn
    cases t
    case card =>
      obtain ⟨call, -, -, -, hexecutes⟩ := hturn
      rw [hcard] at hexecutes
      cases hexecutes
    case forward =>
      obtain ⟨call, -, -, -, -, hrelays⟩ := hturn
      rw [hcard] at hrelays
      generalize link s = l at hrelays hlink
      cases hrelays
      all_goals cases hlink
    case raised =>
      obtain ⟨call, -, -, -, -, hraises⟩ := hturn
      generalize link s = l at hraises hlink
      cases hraises
      all_goals cases hlink
    case storing =>
      obtain ⟨call, -, -, -, -, hwaiting, -⟩ := hturn
      exact absurd (hack.symm.trans hwaiting) Bool.noConfusion
    all_goals rfl
  have hcalm : link s = calm := by
    have haside := h.aside hengages
    rw [hcard] at haside
    generalize link s = l at haside hlink
    cases haside with
    | await hacking =>
      cases hacking
      case due | sent => cases hlink
      case seen => rfl
  refine holds_aside h hengages ((congrArg (Aside .popping) hcalm).mpr .popping)
    (fun _ ↦ head_of h hcard Card.noConfusion) fun _ hmem ↦ ?_
  unfold unseen at hmem
  rw [hcard] at hmem
  exact hmem

theorem acking_ack {toCard : List ToCard} (h : Acking (link s))
    (hcard : s.toCard = .ack :: toCard) :
    link { s with toCard, waitingForAck := false } = calm := by
  have htoCard : (link s).2.1 = .ack :: toCard := hcard
  have hsame : link { s with toCard, waitingForAck := false } =
      ((link s).1, toCard, (link s).2.2.1, false) := rfl
  rw [hsame]
  generalize link s = l at h htoCard
  cases h
  case due | seen => cases htoCard
  case sent =>
    cases htoCard
    rfl

theorem acking_acknowledge (h : Acking (link s)) (hbackend : s.backend = .acking) :
    link { s with toCard := s.toCard ++ [.ack], backend := .idle } =
        ([], [.ack], .idle, true) := by
  have hacking : (link s).2.2.1 = .acking := hbackend
  have hsame : link { s with toCard := s.toCard ++ [.ack], backend := .idle } =
      ((link s).1, (link s).2.1 ++ [.ack], .idle, (link s).2.2.2) := rfl
  rw [hsame]
  generalize link s = l at h hacking
  cases h
  case sent | seen => cases hacking
  case due => rfl

theorem holds_ack {toCard : List ToCard} (h : Holds connected s t) (hthread : s.qemuThread = .idle)
    (hcard : s.toCard = .ack :: toCard) :
    Holds connected { s with toCard, waitingForAck := false } t := by
  have htoCard : (link s).2.1 = .ack :: toCard := hcard
  cases hengages : t.engages with
  | false =>
    have haside := h.aside hengages
    have hacking : s.card = .await [] ∧ Acking (link s) := by
      generalize s.card = card at haside
      generalize hl : link s = l at haside htoCard
      cases haside
      case poll | popping => cases htoCard
      case await hacking => exact ⟨rfl, hacking⟩
    refine holds_aside h hengages ?_ h.head fun _ hmem ↦ hmem
    rw [hacking.1]
    exact .await ((congrArg Acking (acking_ack hacking.2 hcard)).mpr .seen)
  | true =>
    have hturn := h.turn
    cases t
    case card =>
      obtain ⟨call, -, -, hcalm, -⟩ := hturn
      rw [hcalm] at htoCard
      cases htoCard
    case forward =>
      obtain ⟨call, hflight, hcmd, hforwards, hloaded, hrelays⟩ := hturn
      have hrelays' : Relays s.regs s.bar0 s.card
          (link { s with toCard, waitingForAck := false }) := by
        have hack := fun hacking ↦ acking_ack hacking hcard
        generalize s.card = card at hrelays
        generalize hl : link s = l at hrelays htoCard hack
        cases hrelays
        case taken hlist hcopied hacking => exact .taken hlist hcopied (hack hacking ▸ .seen)
        all_goals cases htoCard
      exact { h with
        aside := fun ht ↦ by cases ht
        seen := fun ht ↦ by cases ht
        turn := ⟨call, hflight, hcmd, hforwards, hloaded, hrelays'⟩ }
    case raised =>
      obtain ⟨call, -, -, -, -, hraises⟩ := hturn
      generalize link s = l at hraises htoCard
      cases hraises
      all_goals cases htoCard
    case storing =>
      obtain ⟨call, -, -, -, -, -, stores, hstoring, -⟩ := hturn
      rw [hthread] at hstoring
      cases hstoring
    all_goals cases hengages

theorem holds_acknowledge (h : Holds connected s t) (hbackend : s.backend = .acking) :
    Holds connected { s with toCard := s.toCard ++ [.ack], backend := .idle } t := by
  have hacks : (link s).2.2.1 = .acking := hbackend
  have hacked := fun hacking ↦ acking_acknowledge (s := s) hacking hbackend
  cases hengages : t.engages with
  | false =>
    have haside := h.aside hengages
    have hacking : s.card = .await [] ∧ Acking (link s) := by
      generalize s.card = card at haside
      generalize hl : link s = l at haside hacks
      cases haside
      case poll | popping => cases hacks
      case await hacking => exact ⟨rfl, hacking⟩
    refine holds_aside h hengages ?_ h.head fun _ hmem ↦ hmem
    rw [hacking.1]
    exact .await ((congrArg Acking (hacked hacking.2)).mpr .sent)
  | true =>
    have hturn := h.turn
    cases t
    case card =>
      obtain ⟨call, -, -, hcalm, -⟩ := hturn
      rw [hcalm] at hacks
      cases hacks
    case forward =>
      obtain ⟨call, hflight, hcmd, hforwards, hloaded, hrelays⟩ := hturn
      have hrelays' : Relays s.regs s.bar0 s.card
          (link { s with toCard := s.toCard ++ [.ack], backend := .idle }) := by
        generalize s.card = card at hrelays
        generalize hl : link s = l at hrelays hacks hacked
        cases hrelays
        case taken hlist hcopied hacking => exact .taken hlist hcopied (hacked hacking ▸ .sent)
        all_goals cases hacks
      exact { h with
        aside := fun ht ↦ by cases ht
        seen := fun ht ↦ by cases ht
        turn := ⟨call, hflight, hcmd, hforwards, hloaded, hrelays'⟩ }
    case raised =>
      obtain ⟨call, hflight, hcmd, hforwards, hcard, hraises⟩ := hturn
      have hraises' : Raises (link { s with toCard := s.toCard ++ [.ack], backend := .idle }) := by
        have hsame : link { s with toCard := s.toCard ++ [.ack], backend := .idle } =
            ((link s).1, (link s).2.1 ++ [.ack], .idle, (link s).2.2.2) := rfl
        rw [hsame]
        generalize link s = l at hraises hacks
        cases hraises
        case due hstatus => exact .sent hstatus
        case sent => cases hacks
      exact { h with
        aside := fun ht ↦ by cases ht
        seen := fun ht ↦ by cases ht
        turn := ⟨call, hflight, hcmd, hforwards, hcard, hraises'⟩ }
    case storing =>
      obtain ⟨call, hflight, hcmd, hcard, hacking, hrest⟩ := hturn
      exact { h with
        aside := fun ht ↦ by cases ht
        seen := fun ht ↦ by cases ht
        turn := ⟨call, hflight, hcmd, hcard,
          (congrArg Acking (hacked hacking)).mpr .sent, hrest⟩ }
    all_goals cases hengages

end Aside

section Local

variable {connected : Bool} {s : Machine} {t : Token}

theorem executing (h : Holds connected s t) (haside : ¬ Aside s.card (link s))
    (hrelays : ¬ Relays s.regs s.bar0 s.card (link s)) (hawait : s.card ≠ .await []) :
    t = .card := by
  have hturn := h.turn
  cases t
  case card => rfl
  case forward =>
    obtain ⟨call, -, -, -, -, hrelays'⟩ := hturn
    exact absurd hrelays' hrelays
  case raised =>
    obtain ⟨call, -, -, -, hcard, -⟩ := hturn
    exact absurd hcard hawait
  case storing =>
    obtain ⟨call, -, -, hcard, -⟩ := hturn
    exact absurd hcard hawait
  all_goals exact absurd (h.aside rfl) haside

theorem executes_of (h : Holds connected s t) {card : Card} (hcard : s.card = card)
    (haside : ∀ l, ¬ Aside card l) (hrelays : ∀ l, ¬ Relays s.regs s.bar0 card l)
    (hawait : card ≠ .await []) : t = .card ∧ ∃ call, InFlight s.caller call ∧ call.cmd ≠ 0 ∧
      link s = calm ∧ Executes connected s.bar0 call card := by
  subst hcard
  obtain rfl := executing h (haside _) (hrelays _) hawait
  exact ⟨rfl, h.turn⟩

theorem inv_busyStatus {cmd : BitVec 32} (h : Holds connected s t) (hcard : s.card = .took cmd) :
    Inv connected { s.store .status statusBusy with
      card := if Forwards connected cmd then .forward .control forwarded.tail else .localCmd } := by
  obtain ⟨rfl, call, hflight, hcmd, hcalm, hexecutes⟩ := executes_of h hcard
    (fun l haside ↦ by cases haside) (fun l hrelays ↦ by cases hrelays) Card.noConfusion
  cases hexecutes with
  | took hloaded =>
    have hring := head_of h hcard Card.noConfusion
    have hloaded' : Loaded call (Function.update s.bar0 .status statusBusy) :=
      hloaded.update (.inl rfl)
    by_cases hforwards : Forwards connected call.cmd
    · rw [if_pos hforwards]
      refine ⟨.forward, { h with
        aside := fun ht ↦ by cases ht
        seen := fun ht ↦ by cases ht
        head := fun _ ↦ hring
        turn := ⟨call, hflight, hcmd, hforwards, hloaded', ?_⟩ }⟩
      refine (congrArg (Relays _ _ _) hcalm).mpr
        (@Relays.reading _ _ .control [] forwarded.tail rfl ?_)
      intro r hr
      cases hr
    · rw [if_neg hforwards]
      exact ⟨.card, { h with
        aside := fun ht ↦ by cases ht
        seen := fun ht ↦ by cases ht
        head := fun _ ↦ hring
        turn := ⟨call, hflight, hcmd, hcalm, .localCmd hforwards hloaded'⟩ }⟩

theorem holds_localCmd (h : Holds connected s t) (hcard : s.card = .localCmd) :
    Holds connected { s with card := .localData (s.bar0 .cmd) } .card := by
  obtain ⟨rfl, call, hflight, hcmd, hcalm, hexecutes⟩ := executes_of h hcard
    (fun l haside ↦ by cases haside) (fun l hrelays ↦ by cases hrelays) Card.noConfusion
  cases hexecutes with
  | localCmd hlocal hloaded =>
    have hring := head_of h hcard Card.noConfusion
    rw [hloaded.cmd]
    exact { h with
      aside := fun ht ↦ by cases ht
      seen := fun ht ↦ by cases ht
      head := fun _ ↦ hring
      turn := ⟨call, hflight, hcmd, hcalm, .localData hlocal hloaded⟩ }

theorem holds_localData {cmd : BitVec 32} (h : Holds connected s t)
    (hcard : s.card = .localData cmd) :
    Holds connected { s with
      card := .answering (localStores (processCommandLocal cmd (s.bar0 .data)).1
        (processCommandLocal cmd (s.bar0 .data)).2) } .card := by
  obtain ⟨rfl, call, hflight, hcmd, hcalm, hexecutes⟩ := executes_of h hcard
    (fun l haside ↦ by cases haside) (fun l hrelays ↦ by cases hrelays) Card.noConfusion
  cases hexecutes with
  | localData hlocal hloaded =>
    have hring := head_of h hcard Card.noConfusion
    rw [hloaded.processCommandLocal]
    obtain ⟨hanswered, hstatus⟩ := answered_localStores s.bar0 hlocal
      (processCommandLocal call.cmd call.data).1
    exact { h with
      aside := fun ht ↦ by cases ht
      seen := fun ht ↦ by cases ht
      head := fun _ ↦ hring
      turn := ⟨call, hflight, hcmd, hcalm, .answering hlocal hanswered
        (hstatus ▸ processCommandLocal_status call.cmd call.data)⟩ }

theorem holds_answer {r : Reg} {v : BitVec 32} {stores : List (Reg × BitVec 32)}
    (h : Holds connected s t) (hcard : s.card = .answering ((r, v) :: stores)) :
    Holds connected { s.store r v with card := .answering stores } .card := by
  obtain ⟨rfl, call, hflight, hcmd, hcalm, hexecutes⟩ := executes_of h hcard
    (fun l haside ↦ by cases haside) (fun l hrelays ↦ by cases hrelays) Card.noConfusion
  cases hexecutes with
  | answering hlocal hanswered hstatus =>
    have hring := head_of h hcard Card.noConfusion
    exact { h with
      aside := fun ht ↦ by cases ht
      seen := fun ht ↦ by cases ht
      head := fun _ ↦ hring
      turn := ⟨call, hflight, hcmd, hcalm, .answering hlocal hanswered hstatus⟩ }

theorem holds_inject (h : Holds connected s t) (hcard : s.card = .answering []) :
    Holds connected { s with card := .popping, irq := true } .irq := by
  obtain ⟨rfl, call, hflight, hcmd, hcalm, hexecutes⟩ := executes_of h hcard
    (fun l haside ↦ by cases haside) (fun l hrelays ↦ by cases hrelays) Card.noConfusion
  cases hexecutes with
  | answering hlocal hanswered hstatus =>
    have hring := head_of h hcard Card.noConfusion
    have hjobs : s.jobs = jobsOf connected (processed s .irq) := by
      rw [h.jobs, processed_of_not rfl, processed_of_flight rfl hflight,
        jobsOf_append_of_not _ hlocal]
    exact { h with
      irq := rfl
      aside := fun _ ↦ (congrArg (Aside .popping) hcalm).mpr .popping
      seen := fun ht ↦ by cases ht
      head := fun _ ↦ hring
      turn := ⟨call, hflight, hcmd, hanswered, hstatus⟩
      jobs := hjobs }

end Local

section Relayed

variable {connected : Bool} {s : Machine} {t : Token}

/-- The card is at a point of a command that it leaves to the backend. -/
theorem relays_of (h : Holds connected s t) {card : Card} (hcard : s.card = card)
    (haside : ∀ l, ¬ Aside card l) (hexecutes : ∀ call, ¬ Executes connected s.bar0 call card)
    (hawait : card ≠ .await []) : t = .forward ∧ ∃ call, InFlight s.caller call ∧ call.cmd ≠ 0 ∧
      Forwards connected call.cmd ∧ Loaded call s.bar0 ∧
        Relays s.regs s.bar0 card (link s) := by
  subst hcard
  have hturn := h.turn
  cases t
  case forward => exact ⟨rfl, hturn⟩
  case card =>
    obtain ⟨call, -, -, -, hexecutes'⟩ := hturn
    exact absurd hexecutes' (hexecutes call)
  case raised =>
    obtain ⟨call, -, -, -, hcard, -⟩ := hturn
    exact absurd hcard hawait
  case storing =>
    obtain ⟨call, -, -, hcard, -⟩ := hturn
    exact absurd hcard hawait
  all_goals exact absurd (h.aside rfl) (haside _)

theorem holds_read {r : Reg} {rest : List Reg} (h : Holds connected s t)
    (hcard : s.card = .forward r rest) :
    Holds connected { s with card := .send r (s.bar0 r) rest } .forward := by
  obtain ⟨rfl, call, hflight, hcmd, hforwards, hloaded, hrelays⟩ := relays_of h hcard
    (fun l haside ↦ by cases haside) (fun call hexecutes ↦ by cases hexecutes) Card.noConfusion
  have hring := head_of h hcard Card.noConfusion
  have hrelays' : Relays s.regs s.bar0 (.send r (s.bar0 r) rest) (link s) := by
    generalize link s = l at hrelays
    cases hrelays with
    | reading hlist hcopied => exact .sending hlist hcopied
  exact { h with
    aside := fun ht ↦ by cases ht
    seen := fun ht ↦ by cases ht
    head := fun _ ↦ hring
    turn := ⟨call, hflight, hcmd, hforwards, hloaded, hrelays'⟩ }

theorem holds_send {r : Reg} {v : BitVec 32} {rest : List Reg} (h : Holds connected s t)
    (hcard : s.card = .send r v rest) :
    Holds connected { s with
      card := .await rest
      toQemu := s.toQemu ++ [.write r v]
      waitingForAck := true } .forward := by
  obtain ⟨rfl, call, hflight, hcmd, hforwards, hloaded, hrelays⟩ := relays_of h hcard
    (fun l haside ↦ by cases haside) (fun call hexecutes ↦ by cases hexecutes) Card.noConfusion
  have hring := head_of h hcard Card.noConfusion
  have hrelays' : Relays s.regs s.bar0 (.await rest)
      ((link s).1 ++ [.write r v], (link s).2.1, (link s).2.2.1, true) := by
    generalize link s = l at hrelays
    cases hrelays with
    | sending hlist hcopied => exact .sent hlist hcopied
  exact { h with
    aside := fun ht ↦ by cases ht
    seen := fun ht ↦ by cases ht
    head := fun _ ↦ hring
    turn := ⟨call, hflight, hcmd, hforwards, hloaded, hrelays'⟩ }

theorem holds_next {r : Reg} {rest : List Reg} (h : Holds connected s t)
    (hcard : s.card = .await (r :: rest)) (hack : s.waitingForAck = false) :
    Holds connected { s with card := .forward r rest } .forward := by
  obtain ⟨rfl, call, hflight, hcmd, hforwards, hloaded, hrelays⟩ := relays_of h hcard
    (fun l haside ↦ by cases haside) (fun call hexecutes ↦ by cases hexecutes)
    (fun hnil ↦ by cases hnil)
  have hring := head_of h hcard Card.noConfusion
  have hrelays' : Relays s.regs s.bar0 (.forward r rest) (link s) := by
    have hwaiting : (link s).2.2.2 = false := hack
    generalize link s = l at hrelays hwaiting
    cases hrelays with
    | sent => cases hwaiting
    | taken hlist hcopied hacking =>
      cases hacking with
      | due | sent => cases hwaiting
      | seen => exact .reading hlist hcopied
  exact { h with
    aside := fun ht ↦ by cases ht
    seen := fun ht ↦ by cases ht
    head := fun _ ↦ hring
    turn := ⟨call, hflight, hcmd, hforwards, hloaded, hrelays'⟩ }

end Relayed

end Pciem.Protopciem.CardSteps
