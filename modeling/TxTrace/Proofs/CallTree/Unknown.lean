import TxTrace.Proofs.CallTree.DepthJump
import TxTrace.Proofs.CallTree.Entrance

/-!
Frames of which it is not known how they ended. The outermost frame is one exactly if the trace is said to
have been cut short. Any other one that ran is explained by that or by a jump of the depth, and one that
ran no step by the step after its call, which shows an empty stack or is missing
(`CallTree.unknown_named_ofTrace`).
-/

namespace TxTrace

namespace Anomaly

def isTruncatedTrace : Anomaly → Bool
  | truncatedTrace _ => true
  | _ => false

theorem isTruncatedTrace_of_ofStep {i : Nat} {a : Anomaly} (h : a.OfStep i) : a.isTruncatedTrace = false := by
  cases a with
  | truncatedTrace => cases h
  | _ => rfl

theorem isTruncatedTrace_of_isUndecoded {a : Anomaly} (h : a.IsUndecoded) : a.isTruncatedTrace = false := by
  cases a with
  | truncatedTrace => cases h
  | _ => rfl

end Anomaly

theorem Step.endStatus_ne_unknown (s : Step) : s.endStatus ≠ .unknown := by
  unfold endStatus
  split <;> simp

/-- Both frames have ended in the same way, or neither has, and the same step called them. -/
structure Frame.SameStatus (f f' : Frame) : Prop where
  stop : f'.stop = f.stop
  status : f'.status = f.status
  callStep : f'.callStep = f.callStep

theorem Frame.SameStatus.refl (f : Frame) : f.SameStatus f := ⟨rfl, rfl, rfl⟩

namespace Progress

variable {tx : Transaction} {trace : Trace} {steps : Array Step} {b b' : Progress}

/-! ### The outermost frame -/

/-- Closing all frames changes no others. -/
theorem frames_closeAll_of_not_mem {id : Nat} (hid : id ∉ b.line) :
    (b.closeAll steps).frames[id]? = b.frames[id]? := by
  fun_induction closeAll steps b with
  | case1 => rfl
  | case2 b top rest hopened ih =>
    rw [ih fun h => hid (mem_line_of_close h), frames_close_of_not_mem hid]

/-- Of the frames that are closed with all others neither is known how they ended nor what they
    returned. -/
theorem unknown_closeAll {id : Nat} {f : Frame} (hid : id ∈ b.line)
    (hf : (b.closeAll steps).frames[id]? = some f) : f.status = .unknown ∧ f.output = [] := by
  fun_induction closeAll steps b with
  | case1 b hopened =>
    rw [line, hopened] at hid
    cases hid
  | case2 b top rest hopened ih =>
    by_cases hrest : id ∈ (b.close steps ⟨before steps.size, .unknown, none, none⟩).line
    · exact ih hrest hf
    · rw [frames_closeAll_of_not_mem hrest] at hf
      obtain ⟨g, -, rfl⟩ := exists_of_closed hid hrest hf
      exact ⟨rfl, rfl⟩

/-- The tree when the end of the trace has been seen, and the frames that are open then are not closed
    yet. -/
def atEnd (tx : Transaction) (trace : Trace) : Progress :=
  (reached tx trace.steps trace.steps.size).finishError trace.steps

theorem closed_eq_atEnd {last : Step} (hlast : trace.steps.back? = some last) :
    closed tx trace = (atEnd tx trace).finishOpen trace.steps :=
  closed_eq_of_back? hlast

theorem coherent_atEnd (tx : Transaction) (trace : Trace) : Coherent (atEnd tx trace) :=
  (moves_finishError _ (size_owners_reached tx (Nat.le_refl _))).preserves Move.coherent
    (coherent_reached tx (Nat.le_refl _))

/-- An error on the last step ends the innermost frame, if it is the one of that step. -/
theorem finishError_eq (b : Progress) : b.finishError steps = b ∨
    ∃ error, b.finishError steps = b.close steps ⟨some (steps.size - 1), .invalid, some [], error⟩ := by
  unfold finishError
  split
  · split
    · exact .inr ⟨_, rfl⟩
    · exact .inl rfl
  · exact .inl rfl

/-- If the outermost frame has ended it is known how. -/
theorem status_root_reached {n : Nat} (hn : n ≤ trace.steps.size)
    (hclosed : (reached tx trace.steps n).opened = []) {f : Frame}
    (hf : (reached tx trace.steps n).frames[0]? = some f) : f.status ≠ .unknown := by
  obtain ⟨k, hk, hbefore, hafter, _⟩ := exists_ended hn hclosed
  have hs : trace.steps[k]? = some trace.steps[k] := Array.getElem?_eq_getElem (by omega)
  rw [(reached_of_closed hk hn hafter).2.1] at hf
  cases standing_reached tx hs hbefore with
  | inside hcons => simp [hcons] at hafter
  | entered hcons => simp [hcons] at hafter
  | left hcons => simp [hcons] at hafter
  | ended _ _ hf' _ hstatus =>
    obtain rfl := Option.some.inj (hf.symm.trans hf')
    rw [hstatus]
    exact Step.endStatus_ne_unknown _

/-- The outermost frame is unknown exactly if frames are open at the end. -/
theorem status_root_closed_iff {last : Step} (hlast : trace.steps.back? = some last) {f : Frame}
    (hf : (closed tx trace).frames[0]? = some f) :
    f.status = .unknown ↔ (atEnd tx trace).opened ≠ [] := by
  rw [closed_eq_atEnd hlast, finishOpen] at hf
  by_cases hopened : (atEnd tx trace).opened = []
  · rw [if_pos (by simp [hopened])] at hf
    refine iff_of_false ?_ (not_not_intro hopened)
    have hreached := coherent_reached tx (Nat.le_refl trace.steps.size)
    rcases finishError_eq (reached tx trace.steps trace.steps.size) with heq | ⟨error, heq⟩
    · rw [atEnd, heq] at hf hopened
      exact status_root_reached (Nat.le_refl _) hopened hf
    · rw [atEnd, heq] at hf hopened
      cases hcons : (reached tx trace.steps trace.steps.size).opened with
      | nil =>
        rw [close_of_nil _ hcons] at hf
        exact status_root_reached (Nat.le_refl _) hcons hf
      | cons top outer =>
        rw [opened_close, hcons, List.tail_cons] at hopened
        have hzero : top.id = 0 := hreached.arranged.bottom top.id (by simp [line, hcons, hopened])
        rw [frames_close _ hcons, Array.getElem?_modify, if_pos hzero] at hf
        obtain ⟨g, _, rfl⟩ := Option.map_eq_some_iff.1 hf
        intro hstatus
        cases hstatus
  · rw [if_neg (by simpa [List.isEmpty_iff] using hopened)] at hf
    exact iff_of_true (unknown_closeAll ((coherent_atEnd tx trace).zero_mem_line hopened) hf).1 hopened

/-! ### Anomalies of the end -/

theorem anomalies_closed {last : Step} (hlast : trace.steps.back? = some last) :
    (closed tx trace).anomalies.toList = (reached tx trace.steps trace.steps.size).anomalies.toList ++
      if (atEnd tx trace).opened = [] then [] else [.truncatedTrace (atEnd tx trace).opened.length] := by
  have hatEnd : (atEnd tx trace).anomalies = (reached tx trace.steps trace.steps.size).anomalies :=
    anomalies_finishError _
  rw [closed_eq_atEnd hlast, finishOpen]
  by_cases hopened : (atEnd tx trace).opened = []
  · rw [if_pos (by simp [hopened]), if_pos hopened, hatEnd, List.append_nil]
  · have hall : ((atEnd tx trace).closeAll trace.steps).anomalies =
        (reached tx trace.steps trace.steps.size).anomalies := (anomalies_closeAll _).trans hatEnd
    rw [if_neg (by simpa [List.isEmpty_iff] using hopened), if_neg hopened, ← hall]
    exact Array.toList_push

/-! ### What a step does to frames -/

theorem sameStatus_of_settle {s : Step} {id : Nat} {f' : Frame}
    (hf' : (b.settle s).frames[id]? = some f') : ∃ f, b.frames[id]? = some f ∧ f.SameStatus f' := by
  obtain ⟨f, hf, rfl | ⟨st, _, _, rfl⟩⟩ := exists_of_frames_settle hf'
  · exact ⟨_, hf, .refl _⟩
  · exact ⟨f, hf, rfl, rfl, rfl⟩

/-- An instruction ends the innermost frame, if it is a terminal one, and calls at most one frame, which
    has not ended if it runs code. -/
theorem exists_of_frames_execute {top : OpenFrame} {outer : List OpenFrame} {i id : Nat} {s : Step}
    {f' : Frame} (hopened : b.opened = top :: outer) (hs : steps[i]? = some s)
    (hf' : (b.execute steps i s).frames[id]? = some f') :
    (∃ f, b.frames[id]? = some f ∧ f.SameStatus f') ∨
      (∃ t, s.kind = .terminal t ∧ top.id = id ∧ f'.status = terminalStatus t) ∨
        f'.stop = none ∧ (f'.status = .unknown ∨ f'.IsCodeless steps) := by
  unfold Progress.execute at hf'
  split at hf'
  · next type _ =>
    have hadd {g : Frame} (hstop : g.stop = none) (hnew : g.status = .unknown ∨ g.IsCodeless steps)
        (hf' : ((b.checkOperands i s type).add g).frames[id]? = some f') :
        (∃ f, b.frames[id]? = some f ∧ f.SameStatus f') ∨
          f'.stop = none ∧ (f'.status = .unknown ∨ f'.IsCodeless steps) := by
      rcases exists_of_frames_add ((opened_checkOperands i s type b).trans hopened) hf'
        Frame.SameStatus.refl fun _ _ => ⟨rfl, rfl, rfl⟩ with ⟨f, hf, hsame⟩ | ⟨_, rfl⟩
      · rw [frames_checkOperands] at hf
        exact .inl ⟨f, hf, hsame⟩
      · exact .inr ⟨hstop, hnew⟩
    by_cases hhalts : s.error.isSome ∨ (steps[i + 1]?).any (·.depth < s.depth)
    · rw [call_eq_self hhalts] at hf'
      exact .inl ⟨f', hf', .refl f'⟩
    · cases hnext : (steps[i + 1]?).filter (·.depth = s.depth) with
      | some next =>
        obtain ⟨ht, hdepth⟩ := Option.filter_eq_some_iff.1 hnext
        rw [call_eq_add hhalts hnext] at hf'
        exact (hadd rfl (.inr ⟨i, s, next, rfl, hs, ht, of_decide_eq_true hdepth⟩) hf').imp_right .inr
      | none =>
        rw [call_eq_enter hhalts hnext, frames_enter] at hf'
        exact (hadd rfl (.inl rfl) hf').imp_right .inr
  · next t hkind =>
    rw [terminate, frames_close b hopened, Array.getElem?_modify] at hf'
    split at hf'
    · next hid =>
      obtain ⟨f, _, rfl⟩ := Option.map_eq_some_iff.1 hf'
      exact .inr (.inl ⟨t, hkind, hid, rfl⟩)
    · exact .inl ⟨f', hf', .refl f'⟩
  · refine .inl ?_
    unfold Progress.log at hf'
    split at hf'
    · exact ⟨f', hf', .refl f'⟩
    · exact exists_of_frames_modify hf' .refl fun f => ⟨rfl, rfl, rfl⟩
  · exact .inl ⟨f', hf', .refl f'⟩

/-! ### Frames that ran -/

/-- Of every frame that ran and has ended it is known how it ended. -/
structure Known (b : Progress) : Prop where
  status : ∀ {id : Nat} {f : Frame}, b.frames[id]? = some f → f.stop.isSome → f.status ≠ .unknown

/-- Frames end as they did, and others have not ended or are known to have. -/
theorem Known.of_frames (h : Known b)
    (hframes : ∀ {id : Nat} {f' : Frame}, b'.frames[id]? = some f' →
      (∃ f, b.frames[id]? = some f ∧ f.SameStatus f') ∨ f'.stop = none ∨ f'.status ≠ .unknown) :
    Known b' := by
  constructor
  intro id f' hf' hstop
  rcases hframes hf' with ⟨f, hf, hsame⟩ | hnone | hstatus
  · rw [hsame.status]
    exact h.status hf (hsame.stop ▸ hstop)
  · rw [hnone] at hstop
    cases hstop
  · exact hstatus

theorem Known.congr (h : Known b) (hframes : b'.frames = b.frames) : Known b' :=
  h.of_frames fun hf' => .inl ⟨_, hframes ▸ hf', .refl _⟩

theorem Known.close (h : Known b) {ending : Ending} (hstatus : ending.status ≠ .unknown) :
    Known (b.close steps ending) := by
  cases hopened : b.opened with
  | nil =>
    rw [close_of_nil ending hopened]
    exact h
  | cons top outer =>
    refine h.of_frames fun hf' => ?_
    rw [frames_close b hopened, Array.getElem?_modify] at hf'
    split at hf'
    · obtain ⟨f, _, rfl⟩ := Option.map_eq_some_iff.1 hf'
      exact .inr (.inr hstatus)
    · exact .inl ⟨_, hf', .refl _⟩

/-- No instruction ends a frame in a way that is not known. -/
theorem Known.execute (h : Known b) (hopened : b.opened ≠ []) {i : Nat} {s : Step}
    (hs : steps[i]? = some s) : Known (b.execute steps i s) := by
  obtain ⟨top, outer, hcons⟩ := List.exists_cons_of_ne_nil hopened
  refine h.of_frames fun hf' => ?_
  rcases exists_of_frames_execute hcons hs hf' with hold | ⟨t, hkind, _, hstatus⟩ | ⟨hstop, _⟩
  · exact .inl hold
  · rw [hstatus, ← Step.endStatus_of_kind hkind]
    exact .inr (.inr s.endStatus_ne_unknown)
  · exact .inr (.inl hstop)

/-- A step that shows a frame to have ended in a way that is not known shows a jump. -/
theorem Aligned.known_or_depthJump {i depth : Nat} (haligned : Aligned steps i depth b b')
    (h : Known b) : Known b' ∨ ∃ source target, .depthJump i source target ∈ b'.anomalies := by
  cases haligned with
  | level => exact .inl h
  | halted => exact .inl (h.close (by simp))
  | @jumped top =>
    refine .inr ⟨top.depth, depth, ?_⟩
    rw [anomalies_realign]
    exact mem_anomalies_record.2 (.inr rfl)

/-- As long as no jump is recorded it is known of the frames that ran how they ended. -/
theorem known_or_depthJump_reached (tx : Transaction) {n : Nat} (hn : n ≤ trace.steps.size) :
    Known (reached tx trace.steps n) ∨
      ∃ i source target, .depthJump i source target ∈ (reached tx trace.steps n).anomalies := by
  induction n with
  | zero =>
    refine .inl ⟨fun hf hstop => ?_⟩
    obtain ⟨_, rfl⟩ := Array.getElem?_eq_some_iff.1 hf
    simp [reached_zero, ofTransaction] at hstop
  | succ n ih =>
    have hle := Nat.le_of_succ_le hn
    have hs : trace.steps[n]? = some trace.steps[n] := Array.getElem?_eq_getElem hn
    rcases ih hle with h | ⟨i, source, target, hmem⟩
    · by_cases hopened : (reached tx trace.steps n).opened = []
      · exact .inl (h.congr (reached_of_closed (Nat.le_succ n) hn hopened).2.1)
      · have haligned : Aligned trace.steps n trace.steps[n].depth (reached tx trace.steps n)
            ((reached tx trace.steps n).align trace.steps n trace.steps[n].depth) :=
          aligned_align (contiguous_reached tx hle) hopened n _
        rcases haligned.known_or_depthJump h with h | ⟨source, target, hmem⟩
        · rw [reached_succ hs, step_eq_execute hopened]
          have harrive : Known ((reached tx trace.steps n).arrive trace.steps n trace.steps[n]) :=
            h.of_frames fun hf' => .inl (sameStatus_of_settle hf')
          exact .inl (harrive.execute (arrive_ne_nil hopened n _) hs)
        · exact .inr ⟨n, source, target, (depthJump_mem_reached_iff hs hopened source target).2 hmem⟩
    · exact .inr ⟨i, source, target, (moves_reached (Nat.le_succ n) hn).mem_anomalies hmem⟩

/-- A frame that ran, and of which it is not known how it ended, was open at the end or left in a jump. -/
theorem opened_or_depthJump_of_unknown {last : Step} (hlast : trace.steps.back? = some last) {id : Nat}
    {f : Frame} (hf : (closed tx trace).frames[id]? = some f) (hstatus : f.status = .unknown)
    (hstop : f.stop.isSome) : (atEnd tx trace).opened ≠ [] ∨
      ∃ i source target, .depthJump i source target ∈ (closed tx trace).anomalies := by
  rw [or_iff_not_imp_left, not_not]
  intro hopened
  rcases known_or_depthJump_reached tx (Nat.le_refl trace.steps.size) with
    h | ⟨i, source, target, hmem⟩
  · have hatEnd : Known (atEnd tx trace) := by
      unfold atEnd
      rcases finishError_eq (reached tx trace.steps trace.steps.size) with heq | ⟨error, heq⟩
      · rw [heq]
        exact h
      · rw [heq]
        exact h.close (by simp)
    rw [closed_eq_atEnd hlast, finishOpen, if_pos (by simp [hopened])] at hf
    exact absurd hstatus (hatEnd.status hf hstop)
  · exact ⟨i, source, target, (moves_closed_reached hlast (Nat.le_refl _)).mem_anomalies hmem⟩

/-! ### Calls that ran no code -/

theorem codelessStatus_eq_unknown_iff {t : Step} : codelessStatus t = .unknown ↔ t.stack = [] := by
  unfold codelessStatus Step.stackTop
  cases hstack : t.stack with
  | nil => simp
  | cons word rest =>
    simp only [List.getElem?_cons_zero]
    split <;> simp

/-- A frame that ran no code has ended as soon as it is there. -/
theorem Makes.ended_add {i id : Nat} {s t : Step} {type : CallType}
    (h : Makes tx trace.steps i s type id) (ht : trace.steps[i + 1]? = some t) (hdepth : t.depth = s.depth) :
    ∃ f, f.status = codelessStatus t ∧ Ended f id (reached tx trace.steps (i + 1)) := by
  have hopened : ((reached tx trace.steps i).arrive trace.steps i s).opened ≠ [] :=
    arrive_ne_nil h.opened i s
  obtain ⟨top, outer, hcons⟩ := List.exists_cons_of_ne_nil hopened
  have hadd (f : Frame) := getElem?_frames_add _ f ((opened_checkOperands i s type _).trans hcons) id
  simp only [frames_checkOperands, h.size, if_true] at hadd
  have hline := h.not_mem_line_add ht hdepth
  rw [h.reached_eq_add ht hdepth] at hline ⊢
  exact ⟨_, rfl, hline, _, hadd _, .refl _⟩

end Progress

namespace CallTree

variable {tx : Transaction} {trace : Trace}

/-- That the trace was cut short is recorded once, and only if frames were open at its end. -/
theorem filter_isTruncatedTrace_anomalies (r : Registry) {last : Step}
    (hlast : trace.steps.back? = some last) :
    (anomalies tx trace r).filter (·.isTruncatedTrace) =
      if (Progress.atEnd tx trace).opened = [] then []
      else [.truncatedTrace (Progress.atEnd tx trace).opened.length] := by
  have hreached : (Progress.reached tx trace.steps trace.steps.size).anomalies.toList.filter
      (·.isTruncatedTrace) = [] := by
    rw [List.filter_eq_nil_iff]
    intro a ha
    obtain ⟨i, _, hstep⟩ := Progress.ofStep_of_mem_reached (Nat.le_refl _) (Array.mem_toList_iff.1 ha)
    simp [Anomaly.isTruncatedTrace_of_ofStep hstep]
  have hnamed : ((ofTrace tx trace).1.named r).2.filter (·.isTruncatedTrace) = [] := by
    rw [List.filter_eq_nil_iff]
    intro a ha
    simp [Anomaly.isTruncatedTrace_of_isUndecoded (isUndecoded_of_mem_named ha)]
  rw [anomalies, Progress.anomalies_ofTrace, Array.toList_append, Progress.anomalies_closed hlast]
  simp only [List.filter_append, hreached, hnamed, List.nil_append, List.append_nil]
  cases (Progress.closed tx trace).trailing with
  | none => split <;> rfl
  | some _ => split <;> rfl

theorem truncatedTrace_mem_anomalies_iff (r : Registry) {last : Step}
    (hlast : trace.steps.back? = some last) :
    (∃ n, .truncatedTrace n ∈ anomalies tx trace r) ↔ (Progress.atEnd tx trace).opened ≠ [] := by
  have hmem (n : Nat) : .truncatedTrace n ∈ anomalies tx trace r ↔
      .truncatedTrace n ∈ (anomalies tx trace r).filter (·.isTruncatedTrace) := by
    simp [List.mem_filter, Anomaly.isTruncatedTrace]
  simp only [hmem, filter_isTruncatedTrace_anomalies r hlast]
  split
  · next hopened => simp [hopened]
  · next hopened => simp [hopened]

/-- The outermost frame runs the first step, or one inside it does. -/
theorem covers_zero_root (tx : Transaction) (trace : Trace) (r : Registry) (hne : 0 < trace.steps.size) :
    ((ofTrace tx trace).1.named r).1.root.Covers 0 := by
  have hs : trace.steps[0]? = some trace.steps[0] := Array.getElem?_eq_getElem hne
  have hopened : (Progress.reached tx trace.steps 0).opened ≠ [] := List.cons_ne_nil _ _
  obtain ⟨top, outer, harrived⟩ :=
    Progress.arrived_reached hs (Progress.contiguous_reached tx (Nat.zero_le _)) hopened
  refine covers_of_mem_line tx trace r (frame?_root _) hs hopened ?_
  exact harrived.coherent.zero_mem_line (Progress.arrive_ne_nil hopened 0 _)

/-- That the trace was cut short is recorded exactly if it is not known how the outermost frame ended,
    and once at most. Of any other frame that ran the same is explained by that or by a jump. A frame
    that ran no step was called by the last one, or found no word on the stack after its call. -/
theorem unknown_named_ofTrace (tx : Transaction) (trace : Trace) (r : Registry)
    (hne : 0 < trace.steps.size) :
    ((∃ n, .truncatedTrace n ∈ anomalies tx trace r) ↔
        ((ofTrace tx trace).1.named r).1.root.status = .unknown) ∧
      (anomalies tx trace r).countP (·.isTruncatedTrace) ≤ 1 ∧
      ∀ id f, ((ofTrace tx trace).1.named r).1.frame? id = some f → f.status = .unknown →
        (f.stop.isSome → (∃ n, .truncatedTrace n ∈ anomalies tx trace r) ∨
          ∃ i source target, .depthJump i source target ∈ anomalies tx trace r) ∧
        (f.stop = none → ∃ i s, f.callStep = some i ∧ trace.steps[i]? = some s ∧
          ((∃ t, trace.steps[i + 1]? = some t ∧ t.depth = s.depth ∧ t.stack = []) ∨
            i + 1 = trace.steps.size)) := by
  obtain ⟨last, hlast⟩ := Progress.exists_back?_eq_some hne
  have hroot : (∃ n, .truncatedTrace n ∈ anomalies tx trace r) ↔
      ((ofTrace tx trace).1.named r).1.root.status = .unknown := by
    have hf := frame?_root ((ofTrace tx trace).1.named r).1
    rw [frame?_named_ofTrace] at hf
    obtain ⟨g, hg, hfinal⟩ := Option.map_eq_some_iff.1 hf
    rw [truncatedTrace_mem_anomalies_iff r hlast, ← hfinal, status_finalFrame,
      Progress.status_root_closed_iff hlast hg]
  refine ⟨hroot, ?_, fun id f hf hstatus => ?_⟩
  · rw [List.countP_eq_length_filter, filter_isTruncatedTrace_anomalies r hlast]
    split <;> simp
  rcases Nat.eq_zero_or_pos id with rfl | hid
  · obtain rfl := Option.some.inj ((frame?_root _).symm.trans hf)
    refine ⟨fun _ => .inl (hroot.2 hstatus), fun hstop => ?_⟩
    obtain ⟨_, hlast', _⟩ := covers_zero_root tx trace r hne
    rw [hstop] at hlast'
    cases hlast'
  have hid' : id ≠ 0 := Nat.ne_of_gt hid
  have hframe := hf
  rw [frame?_named_ofTrace] at hframe
  obtain ⟨g, hg, hfinal⟩ := Option.map_eq_some_iff.1 hframe
  rw [finalFrame_of_ne_zero tx trace r hid'] at hfinal
  have hgstatus : g.status = .unknown := by rw [← hstatus, ← hfinal]
  constructor
  · intro hstop
    rw [truncatedTrace_mem_anomalies_iff r hlast]
    refine (Progress.opened_or_depthJump_of_unknown hlast hg hgstatus
      (by rw [← hfinal] at hstop; exact hstop)).imp_right ?_
    rintro ⟨i, source, target, hmem⟩
    refine ⟨i, source, target, List.mem_append_left _ (Array.mem_toList_iff.2 ?_)⟩
    rw [Progress.anomalies_ofTrace]
    exact Array.mem_append_left _ hmem
  · intro hstop
    rcases codeless_or_last tx trace r hf hid' hstop with
      ⟨i, s, t, hcall, hs, ht, hdepth⟩ | ⟨i, hcall, hi⟩
    · obtain ⟨s', hmakes⟩ := makes_named_ofTrace tx trace r hf hcall
      obtain rfl := Option.some.inj (hs.symm.trans hmakes.step)
      have hlt : i < trace.steps.size := (Array.getElem?_eq_some_iff.1 hs).1
      obtain ⟨f₀, hcodeless, hended⟩ := hmakes.ended_add ht hdepth
      have hran : 0 < (Progress.reached tx trace.steps (i + 1)).owners.size := by
        rw [Progress.size_owners_reached tx hlt]
        exact Nat.succ_pos i
      obtain ⟨_, g', hg', hsettles⟩ := (Progress.moves_closed_reached hlast hlt).ended hran hended
      obtain rfl := Option.some.inj (hg.symm.trans hg')
      refine ⟨i, s, hcall, hs, .inl ⟨t, ht, hdepth, Progress.codelessStatus_eq_unknown_iff.1 ?_⟩⟩
      rw [← hcodeless, ← hgstatus, hsettles]
    · obtain ⟨s, hmakes⟩ := makes_named_ofTrace tx trace r hf hcall
      exact ⟨i, s, hcall, hmakes.step, .inr hi⟩

/-- A call runs no code, and the trace ends with the next step, which shows no stack. -/
def cutShort : Trace where
  steps :=
    #[⟨0, "CALL", 1, 100, 10, [50, 0xcc, 0, 0, 0, 0, 0], none, none, none, none⟩,
      ⟨1, "JUMPDEST", 1, 80, 1, [], none, none, none, none⟩]
  dropped := []
  gasUsed := none
  failed := none
  returnValue := none
  depth_le := by simp [maxCallDepth]

theorem unknown_named_ofTrace_cutShort :
    (∃ n, .truncatedTrace n ∈
      anomalies ⟨none, 0xee, some 0xbb, [], 0, 0, 0, none, none⟩ cutShort Registry.empty) ∧
    ∃ f, ((ofTrace ⟨none, 0xee, some 0xbb, [], 0, 0, 0, none, none⟩ cutShort).1.named
        Registry.empty).1.frame? 1 = some f ∧ f.status = .unknown ∧
      ∃ i s, f.callStep = some i ∧ cutShort.steps[i]? = some s ∧
        ((∃ t, cutShort.steps[i + 1]? = some t ∧ t.depth = s.depth ∧ t.stack = []) ∨
          i + 1 = cutShort.steps.size) := by
  have hunknown := unknown_named_ofTrace ⟨none, 0xee, some 0xbb, [], 0, 0, 0, none, none⟩ cutShort
    Registry.empty (by decide)
  have hframe : ((((ofTrace ⟨none, 0xee, some 0xbb, [], 0, 0, 0, none, none⟩ cutShort).1.named
      Registry.empty).1.frame? 1).map fun f => (f.status, f.stop)) = some (.unknown, none) := by
    decide +kernel
  obtain ⟨f, hf, heq⟩ := Option.map_eq_some_iff.1 hframe
  obtain ⟨hstatus, hstop⟩ := Prod.mk.inj heq
  exact ⟨hunknown.1.2 (by decide +kernel), f, hf, hstatus, (hunknown.2.2 1 f hf hstatus).2 hstop⟩

end CallTree

end TxTrace
