import TxTrace.Analysis.Event
import TxTrace.Proofs.CallTree.WellFormed

/-!
The addresses of logs. A log is stamped when it is emitted, and the address of a contract that the
trace creates is learned only after its frame has ended: its logs carry the address zero
(`CallTree.log_address_named_ofTrace`), and those of all other frames the storage context.
-/

namespace TxTrace

/-- The frame creates a contract on behalf of another frame. -/
def Frame.IsInnerCreation (f : Frame) : Prop := f.callType.isCreate ∧ f.parent.isSome

instance (f : Frame) : Decidable f.IsInnerCreation := inferInstanceAs (Decidable (_ ∧ _))

/-- The address that the logs of a frame carry. -/
def Frame.stamp (f : Frame) : Address := if f.IsInnerCreation then 0 else f.context.getD 0

/-- The context that a frame knows while it runs, and lends to what it calls. -/
def Frame.lent (f : Frame) : Option Address := if f.IsInnerCreation then none else f.context

theorem Frame.stamp_eq_lent (f : Frame) : f.stamp = f.lent.getD 0 := by
  unfold stamp lent
  split
  · rfl
  · rfl

theorem Frame.isInnerCreation_iff {f f' : Frame} (hcall : f'.callType = f.callType)
    (hparent : f'.parent = f.parent) : f'.IsInnerCreation ↔ f.IsInnerCreation := by
  rw [IsInnerCreation, IsInnerCreation, hcall, hparent]

/-- Only creations learn their context after they have ended, and do not lend it. -/
theorem Frame.lent_settle {f : Frame} {s : Step} {needsOutput : Bool} (hparent : f.parent.isSome) :
    (f.settle s needsOutput).lent = f.lent := by
  have hiff : (f.settle s needsOutput).IsInnerCreation ↔ f.IsInnerCreation :=
    isInnerCreation_iff rfl rfl
  simp only [lent, hiff]
  split
  · rfl
  · next hinner =>
    have hcreate : ¬ f.callType.isCreate := fun h => hinner ⟨h, hparent⟩
    simp only [settle, if_neg hcreate, Option.none_or]

namespace Progress

variable {steps : Array Step} {b b' : Progress}

/-- Logs carry the stamp of their frame: while an inner creation runs its context is not known, and
    what the next step tells is told of a frame that is no longer open. -/
structure Stamped (b : Progress) : Prop where
  logs : ∀ {id : Nat} {f : Frame} {log : Log}, b.frames[id]? = some f → log ∈ f.logs → log.address = f.stamp
  unnamed : ∀ {id : Nat} {f : Frame},
    b.frames[id]? = some f → id ∈ b.line → f.IsInnerCreation → f.context = none
  settled : ∀ {st : Settlement},
    b.settlement = some st → st.id < b.frames.size ∧ (b.opened = [] ∨ st.id ∉ b.line)

theorem Stamped.stamp_of_mem_line (h : Stamped b) {id : Nat} {f : Frame}
    (hf : b.frames[id]? = some f) (hid : id ∈ b.line) : f.stamp = f.context.getD 0 := by
  unfold Frame.stamp
  split
  · next hcreates =>
    rw [h.unnamed hf hid hcreates]
    rfl
  · rfl

/-- What logs depend on is the same of both frames. -/
structure SameEmitter (f f' : Frame) : Prop where
  logs : f'.logs = f.logs
  callType : f'.callType = f.callType
  parent : f'.parent = f.parent
  context : f'.context = f.context

theorem SameEmitter.refl (f : Frame) : SameEmitter f f := ⟨rfl, rfl, rfl, rfl⟩

theorem SameEmitter.isInnerCreation_iff {f f' : Frame} (h : SameEmitter f f') :
    f'.IsInnerCreation ↔ f.IsInnerCreation :=
  Frame.isInnerCreation_iff h.callType h.parent

theorem SameEmitter.stamp_eq {f f' : Frame} (h : SameEmitter f f') : f'.stamp = f.stamp := by
  simp only [Frame.stamp, h.isInnerCreation_iff, h.context]

/-- Frames that were there keep logs and context, and new ones have no logs and, if they create a
    contract, no context. -/
theorem Stamped.congr (h : Stamped b)
    (hframes : ∀ {id : Nat} {f' : Frame}, b'.frames[id]? = some f' →
      (∃ f, b.frames[id]? = some f ∧ SameEmitter f f') ∨
        (f'.logs = #[] ∧ (f'.IsInnerCreation → f'.context = none)))
    (hline : ∀ {id : Nat}, id ∈ b'.line → id < b.frames.size → id ∈ b.line)
    (hsettled : ∀ {st : Settlement}, b'.settlement = some st →
      st.id < b'.frames.size ∧ (b'.opened = [] ∨ st.id ∉ b'.line)) : Stamped b' := by
  constructor
  case logs =>
    intro id f' log hf' hlog
    rcases hframes hf' with ⟨f, hf, hsame⟩ | ⟨hnil, _⟩
    · rw [hsame.logs] at hlog
      rw [hsame.stamp_eq]
      exact h.logs hf hlog
    · simp [hnil] at hlog
  case unnamed =>
    intro id f' hf' hid hcreates
    rcases hframes hf' with ⟨f, hf, hsame⟩ | ⟨_, hnone⟩
    · rw [hsame.context]
      have hlt := (Array.getElem?_eq_some_iff.1 hf).1
      exact h.unnamed hf (hline hid hlt) (hsame.isInnerCreation_iff.1 hcreates)
    · exact hnone hcreates
  case settled => exact hsettled

/-- Nothing but what does not concern logs was changed. -/
theorem Stamped.of_eq (h : Stamped b) (hframes : b'.frames = b.frames) (hopened : b'.opened = b.opened)
    (hsettlement : b'.settlement = b.settlement) : Stamped b' := by
  have hline : b'.line = b.line := by rw [line, hopened, line]
  refine h.congr ?_ ?_ ?_
  · intro id f' hf'
    rw [hframes] at hf'
    exact .inl ⟨f', hf', .refl f'⟩
  · intro id hid _
    exact hline ▸ hid
  · intro st hst
    rw [hframes, hopened, hline]
    exact h.settled (hsettlement ▸ hst)

theorem Stamped.close (h : Stamped b) (hc : Coherent b) (ending : Ending) :
    Stamped (b.close steps ending) := by
  cases hopened : b.opened with
  | nil =>
    rw [close_of_nil ending hopened]
    exact h
  | cons top outer =>
    have hline := line_of_opened hopened
    have htop : top.id < b.frames.size := hc.lt_size_of_mem_line (hline ▸ List.mem_cons_self)
    refine h.congr ?_ ?_ ?_
    · intro id f' hf'
      rw [frames_close b hopened] at hf'
      exact .inl (exists_of_frames_modify hf' .refl fun f => ⟨rfl, rfl, rfl, rfl⟩)
    · intro id hid _
      rw [line_close hopened] at hid
      exact hline ▸ List.mem_cons_of_mem _ hid
    · intro st hst
      have hsize : (b.close steps ending).frames.size = b.frames.size := by
        simp [frames_close b hopened]
      rw [settlement_close b hopened] at hst
      rw [hsize, line_close hopened, opened_close, hopened, List.tail_cons]
      cases outer with
      | nil =>
        obtain ⟨hlt, _⟩ := h.settled hst
        exact ⟨hlt, .inl rfl⟩
      | cons next rest =>
        obtain rfl := Option.some.inj hst
        exact ⟨htop, .inr (hc.arranged.not_mem_tail hline)⟩

/-- A creation does not know the address of the new contract when it begins. -/
theorem Begins.emitter {f : Frame} (h : Begins steps b f) :
    f.logs = #[] ∧ (f.callType.isCreate → f.context = none) := by
  cases h with
  | unseen => exact ⟨rfl, fun hcreate => by cases hcreate⟩
  | @called i s type status hs hran hkind =>
    refine ⟨rfl, fun hcreate => ?_⟩
    have hcreate' : type.isCreate = true := hcreate
    have hborrows : type.borrowsContext = false := by
      cases type with
      | create | create2 => rfl
      | _ => cases hcreate'
    have htarget : (Operands.ofStack? type s.stack).bind (·.target) = none := by
      cases type with
      | create | create2 =>
        unfold Operands.ofStack?
        split <;> simp_all
      | _ => cases hcreate'
    simp only [calledFrame, hborrows, htarget]
    rfl

theorem emitter_add {f f' : Frame} {id : Nat} (hopened : b.opened ≠ []) (hbegins : Begins steps b f)
    (hf' : (b.add f).frames[id]? = some f') :
    (∃ g, b.frames[id]? = some g ∧ SameEmitter g f') ∨
      (f'.logs = #[] ∧ (f'.IsInnerCreation → f'.context = none)) := by
  obtain ⟨top, outer, hcons⟩ := List.exists_cons_of_ne_nil hopened
  obtain ⟨hlogs, hcontext⟩ := hbegins.emitter
  have hframes := exists_of_frames_add hcons hf' SameEmitter.refl fun _ _ => ⟨rfl, rfl, rfl, rfl⟩
  rcases hframes with hold | ⟨_, rfl⟩
  · exact .inl hold
  · exact .inr ⟨hlogs, fun hcreates => hcontext hcreates.1⟩

theorem Stamped.codeless (h : Stamped b) (hc : Coherent b) {f : Frame} (hopened : b.opened ≠ [])
    (hbegins : Begins steps b f) :
    Stamped { b.add f with settlement := some ⟨b.frames.size, true⟩ } := by
  have hline : ({ b.add f with settlement := some ⟨b.frames.size, true⟩ } : Progress).line =
      b.line := line_add b f
  refine h.congr (emitter_add hopened hbegins) ?_ ?_
  · intro id hid _
    exact hline ▸ hid
  · intro st hst
    obtain rfl := Option.some.inj hst
    rw [hline]
    refine ⟨?_, .inr fun hid => ?_⟩
    · show b.frames.size < (b.add f).frames.size
      rw [size_frames_add b f hopened]
      exact Nat.lt_succ_self _
    · exact Nat.lt_irrefl _ (hc.lt_size_of_mem_line hid)

theorem Stamped.enter (h : Stamped b) {f : Frame} (hopened : b.opened ≠ [])
    (hbegins : Begins steps b f) : Stamped (b.enter f) := by
  obtain ⟨top, outer, hcons⟩ := List.exists_cons_of_ne_nil hopened
  have hline := line_enter hcons f
  refine h.congr ?_ ?_ ?_
  · intro id f' hf'
    rw [frames_enter] at hf'
    exact emitter_add hopened hbegins hf'
  · intro id hid hlt
    rw [hline] at hid
    exact (List.mem_cons.1 hid).resolve_left (Nat.ne_of_lt hlt)
  · intro st hst
    rw [settlement_enter] at hst
    obtain ⟨hlt, hst'⟩ := h.settled hst
    rw [frames_enter, size_frames_add b f hopened, hline]
    refine ⟨Nat.lt_succ_of_lt hlt, .inr fun hid => ?_⟩
    rcases List.mem_cons.1 hid with heq | hid
    · exact Nat.ne_of_lt hlt heq
    · exact (hst'.resolve_left hopened) hid

/-- What is told of a frame that has ended changes the stamp of no frame: the outermost one is still
    open, and of the others only creations get a context. -/
theorem Stamped.settle (h : Stamped b) (hc : Coherent b) (hopened : b.opened ≠ []) (s : Step) :
    Stamped (b.settle s) := by
  have hnot {st : Settlement} (hst : b.settlement = some st) : st.id ∉ b.line :=
    (h.settled hst).2.resolve_left hopened
  constructor
  case logs =>
    intro id f' log hf' hlog
    obtain ⟨f, hf, rfl | ⟨st, hst, rfl, rfl⟩⟩ := exists_of_frames_settle hf'
    · exact h.logs hf hlog
    · have hne : st.id ≠ 0 := fun hzero => hnot hst (hzero ▸ hc.zero_mem_line hopened)
      have hlogs := h.logs hf hlog
      rw [f.stamp_eq_lent, ← Frame.lent_settle (hc.isSome_parent hf hne)] at hlogs
      rw [Frame.stamp_eq_lent]
      exact hlogs
  case unnamed =>
    intro id f' hf' hid hcreates
    rw [line_settle] at hid
    obtain ⟨f, hf, rfl | ⟨st, hst, rfl, rfl⟩⟩ := exists_of_frames_settle hf'
    · exact h.unnamed hf hid hcreates
    · exact absurd hid (hnot hst)
  case settled =>
    intro st' hst'
    rw [settlement_settle] at hst'
    cases hst'

theorem address_of_logOf? {i topics : Nat} {s : Step} {address : Address} {log : Log}
    (h : logOf? i s topics address = some log) : log.address = address := by
  unfold logOf? at h
  split at h
  · split at h
    · rw [← Option.some.inj h]
    · cases h
  · cases h

/-- A log is stamped with the context of the frame that emits it, which an inner creation has not. -/
theorem Stamped.log (h : Stamped b) (hopened : b.opened ≠ []) (i : Nat) (s : Step) (topics : Nat) :
    Stamped (b.log i s topics) := by
  obtain ⟨top, outer, hcons⟩ := List.exists_cons_of_ne_nil hopened
  have htop : top.id ∈ b.line := by simp [line, hcons]
  unfold Progress.log
  split
  · exact h.of_eq rfl rfl rfl
  · next log hlog =>
    rw [hcons, List.head?_cons, Option.map_some, Option.getD_some]
    constructor
    case logs =>
      intro id f' log' hf' hlog'
      simp only [modify, Array.getElem?_modify] at hf'
      split at hf'
      · next hid =>
        obtain ⟨f, hf, rfl⟩ := Option.map_eq_some_iff.1 hf'
        rcases Array.mem_push.1 hlog' with hold | rfl
        · have hold := h.logs hf hold
          exact hold
        · have hcontext : b.context = f.context := by
            rw [context, hcons, List.head?_cons, Option.bind_some, hid, hf, Option.bind_some]
          rw [address_of_logOf? hlog, hcontext]
          exact (h.stamp_of_mem_line hf (hid ▸ htop)).symm
      · exact h.logs hf' hlog'
    case unnamed =>
      intro id f' hf' hid hcreates
      simp only [modify, Array.getElem?_modify] at hf'
      split at hf'
      · obtain ⟨f, hf, rfl⟩ := Option.map_eq_some_iff.1 hf'
        have hnone := h.unnamed hf hid hcreates
        exact hnone
      · exact h.unnamed hf' hid hcreates
    case settled =>
      intro st hst
      rw [size_frames_modify]
      exact h.settled hst

theorem Stamped.finishEmpty (h : Stamped b) (failed : Option Bool) :
    Stamped (b.finishEmpty failed) := by
  refine h.congr ?_ ?_ ?_
  · intro id f' hf'
    exact .inl (exists_of_frames_modify hf' .refl fun f => ⟨rfl, rfl, rfl, rfl⟩)
  · intro id hid _
    cases hid
  · intro st hst
    have hlt := (h.settled hst).1
    have hsize : (b.finishEmpty failed).frames.size = b.frames.size := by
      simp [Progress.finishEmpty]
    exact ⟨hsize ▸ hlt, .inl rfl⟩

theorem Move.stamped (hmove : Move steps b b') (hc : Coherent b) (h : Stamped b) : Stamped b' := by
  cases hmove with
  | record a => exact h.of_eq rfl rfl rfl
  | close hends => exact h.close hc _
  | enter hopened hbegins => exact h.enter hopened hbegins
  | codeless hopened hbegins => exact h.codeless hc hopened hbegins
  | setDepth depth =>
    refine h.congr ?_ ?_ ?_
    · intro id f' hf'
      rw [frames_setDepth] at hf'
      exact .inl ⟨f', hf', .refl f'⟩
    · intro id hid _
      rwa [line_setDepth] at hid
    · intro st hst
      rw [settlement_setDepth] at hst
      rw [frames_setDepth, line_setDepth]
      obtain ⟨hlt, hst'⟩ := h.settled hst
      refine ⟨hlt, hst'.imp_left fun hnil => ?_⟩
      unfold Progress.setDepth
      rw [hnil]
      exact hnil
  | settle hopened hs => exact h.settle hc hopened _
  | own hopened => exact h.of_eq rfl rfl rfl
  | log hopened hs hran hkind => exact h.log hopened _ _ _
  | trail hclosed => exact h.of_eq rfl rfl rfl
  | finishEmpty failed hnone => exact h.finishEmpty failed

theorem stamped_ofTransaction (tx : Transaction) (steps : Array Step) :
    Stamped (ofTransaction tx steps) where
  logs := by
    intro id f log hf hlog
    obtain ⟨_, rfl⟩ := Array.getElem?_eq_some_iff.1 hf
    simp [ofTransaction] at hlog
  unnamed := by
    intro id f hf _ hcreates
    obtain ⟨_, rfl⟩ := Array.getElem?_eq_some_iff.1 hf
    simp [ofTransaction, Frame.IsInnerCreation] at hcreates
  settled := by
    intro st hst
    cases hst

theorem stamped_of_moves {tx : Transaction} (hmoves : Moves steps (ofTransaction tx steps) b) :
    Stamped b := by
  have h := hmoves.preserves (P := fun b => Coherent b ∧ Stamped b)
    (fun hmove hb => ⟨hmove.coherent hb.1, hmove.stamped hb.1 hb.2⟩)
    ⟨coherent_ofTransaction tx steps, stamped_ofTransaction tx steps⟩
  exact h.2

theorem stamped_closed (tx : Transaction) (trace : Trace) : Stamped (closed tx trace) :=
  stamped_of_moves (moves_closed tx trace)

end Progress

namespace Registry

/-- An event has the address of its log, whether or not the log decodes. -/
theorem address_event (r : Registry) (code : Address) (log : Log) :
    (r.event code log).1.address = some log.address := by
  unfold event
  split
  · rfl
  · split <;> rfl

end Registry

namespace CallTree

theorem log_address_ofTrace (tx : Transaction) (trace : Trace) {id : Nat} {f : Frame} {log : Log}
    (hf : (ofTrace tx trace).1.frame? id = some f) (hlog : log ∈ f.logs) :
    log.address = f.stamp := by
  rw [frame?, Progress.frames_ofTrace] at hf
  obtain ⟨g, hg, hsame⟩ := Progress.exists_of_frames_modify hf Progress.SameEmitter.refl
    fun f => ⟨rfl, rfl, rfl, rfl⟩
  rw [hsame.logs] at hlog
  rw [hsame.stamp_eq]
  exact (Progress.stamped_closed tx trace).logs hg hlog

theorem log_address_named_ofTrace (tx : Transaction) (trace : Trace) (r : Registry) {id : Nat}
    {f : Frame} {log : Log} (hf : ((ofTrace tx trace).1.named r).1.frame? id = some f)
    (hlog : log ∈ f.logs) : log.address = f.stamp := by
  rw [frames_named] at hf
  obtain ⟨g, hg, rfl⟩ := Option.map_eq_some_iff.1 hf
  have hstamp := log_address_ofTrace tx trace hg hlog
  exact hstamp

/-- The events that a trace shows carry the stamps of the frames that emitted them. -/
theorem event_address_named_ofTrace (tx : Transaction) (trace : Trace) (r : Registry)
    {e : Abi.DecodedEvent × List Anomaly}
    (he : e ∈ r.treeEvents ((ofTrace tx trace).1.named r).1) :
    ∃ id f, ((ofTrace tx trace).1.named r).1.frame? id = some f ∧
      e.1.address = some f.stamp := by
  simp only [Registry.treeEvents, List.mem_map, List.mem_mergeSort, List.mem_flatMap] at he
  obtain ⟨⟨f, log⟩, ⟨g, hg, log', hlog, hpair⟩, rfl⟩ := he
  obtain ⟨rfl, rfl⟩ := Prod.mk.inj hpair
  obtain ⟨id, hid⟩ := List.mem_iff_getElem?.1 hg
  rw [Array.getElem?_toList] at hid
  refine ⟨id, g, hid, ?_⟩
  rw [Registry.address_event, log_address_named_ofTrace tx trace r hid (Array.mem_toList_iff.1 hlog)]

/-- A log and its event carry the storage context of their frame, unless the frame is that of a
    contract that another one creates: then they carry the address zero. -/
theorem log_address_eq_context_iff (tx : Transaction) (trace : Trace) (r : Registry) {id : Nat}
    {f : Frame} {a : Address} {log : Log}
    (hf : ((ofTrace tx trace).1.named r).1.frame? id = some f) (ha : f.context = some a)
    (hlog : log ∈ f.logs) :
    (log.address = a ↔ ¬ f.IsInnerCreation ∨ a = 0) ∧
      (f.IsInnerCreation → log.address = 0) ∧
      ∀ code, (r.event code log).1.address = some log.address := by
  have hstamp := log_address_named_ofTrace tx trace r hf hlog
  have hevent : ∀ code, (r.event code log).1.address = some log.address := fun code =>
    r.address_event code log
  by_cases hcreates : f.IsInnerCreation
  · have hzero : log.address = 0 := by rw [hstamp, Frame.stamp, if_pos hcreates]
    refine ⟨?_, fun _ => hzero, hevent⟩
    rw [hzero]
    constructor
    · intro heq
      exact .inr heq.symm
    · rintro (hnot | rfl)
      · exact absurd hcreates hnot
      · rfl
  · have hcontext : log.address = a := by
      rw [hstamp, Frame.stamp, if_neg hcreates, ha, Option.getD_some]
    exact ⟨⟨fun _ => .inl hcreates, fun _ => hcontext⟩, fun h => absurd h hcreates, hevent⟩

/-- A contract creates another one, which emits a log before it returns. -/
def creationWithLog : Trace where
  steps :=
    #[⟨0, "CREATE", 1, 100, 10, [0, 0, 0], none, none, none, none⟩,
      ⟨0, "LOG0", 2, 80, 10, [0, 0], none, none, none, none⟩,
      ⟨1, "STOP", 2, 70, 0, [], none, none, none, none⟩,
      ⟨1, "STOP", 1, 60, 0, [0xaa], none, none, none, none⟩]
  dropped := []
  gasUsed := none
  failed := none
  returnValue := none
  depth_le := by simp [maxCallDepth]

/-- The call of the contract `0xbb`. -/
def callOfContract : Transaction where
  hash := none
  sender := 0xee
  receiver := some 0xbb
  input := []
  value := 0
  gasLimit := 0
  gasPrice := 0
  nonce := none
  receipt := none

/-- The tree of a call of the contract `0xbb` that creates the contract `0xaa`. -/
def creatingTree : CallTree :=
  ((ofTrace callOfContract creationWithLog).1.named Registry.empty).1

/-- The frame of the contract `0xaa`. -/
def createdFrame : Frame := (creatingTree.frame? 1).get (by decide +kernel)

theorem creatingTree_createdFrame : creatingTree.frame? 1 = some createdFrame :=
  (Option.some_get _).symm

theorem log_address_eq_context_iff_createdFrame :
    ((0 : Address) = 0xaa ↔ ¬ createdFrame.IsInnerCreation ∨ (0xaa : Address) = 0) ∧
      (createdFrame.IsInnerCreation → (0 : Address) = 0) ∧
      ∀ code, (Registry.empty.event code ⟨0, [], [], some 1⟩).1.address = some 0 := by
  have hcontext : createdFrame.context = some 0xaa := by decide +kernel
  have hlog : (⟨0, [], [], some 1⟩ : Log) ∈ createdFrame.logs := by decide +kernel
  exact log_address_eq_context_iff callOfContract creationWithLog Registry.empty
    creatingTree_createdFrame hcontext hlog

/-- Logs do not always carry the storage context of their frame. -/
theorem not_forall_log_address_eq_context :
    ¬ ∀ (tx : Transaction) (trace : Trace) (r : Registry) (id : Nat) (f : Frame) (a : Address)
        (log : Log), ((ofTrace tx trace).1.named r).1.frame? id = some f → f.context = some a →
        log ∈ f.logs → log.address = a := by
  intro h
  have hzero : (0 : Address) = 0xaa :=
    h callOfContract creationWithLog Registry.empty 1 createdFrame 0xaa ⟨0, [], [], some 1⟩
      creatingTree_createdFrame (by decide +kernel) (by decide +kernel)
  exact absurd hzero (by decide)

end CallTree

end TxTrace
