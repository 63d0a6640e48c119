import IntentumdiffLsp.Client
import IntentumdiffLsp.RoundTrip
import Mathlib.Data.List.Nodup

namespace IntentumdiffLsp.Wire

open Foundations
open Foundations.ActionSystem
open Function
open IntentumdiffLsp.Json
open IntentumdiffLsp.Codec
open IntentumdiffLsp.Codec.FrameDecoder
open IntentumdiffLsp.Chunking
open IntentumdiffLsp.RoundTrip
open IntentumdiffLsp.Client
open IntentumdiffLsp.Client.LspClient

/-- The transport took a part of the frame of call `c`. -/
def PartlyWritten (sess : Session) (s : LspClient) (c : Nat) : Prop :=
  0 < s.accepted c ∧ s.accepted c < (s.frame sess c).length

/-- The frame was given up in the middle. -/
def Torn (sess : Session) (s : LspClient) (c : Nat) : Prop :=
  PartlyWritten sess s c ∧ s.stage c ≠ .writing

/-- No byte is written behind a frame that was given up in the middle. -/
def Intact (sess : Session) (s : LspClient) (a : Action) : Prop :=
  ∀ c n, a = .accept c n → ∀ c', ¬Torn sess s c'

def beforeWrite : Stage → Bool
  | .idle | .idTaken | .queued => true
  | _ => false

/-- The lock and the byte counts. -/
structure Exclusive (sess : Session) (s : LspClient) : Prop where
  holder : ∀ c, s.stage c = .writing ↔ s.writer = some c
  unwritten : ∀ c, beforeWrite (s.stage c) = true → s.accepted c = 0
  bounded : ∀ c, s.accepted c ≤ (s.frame sess c).length

/-- The wire carries the frames of the complete calls, and behind them what was
written of one more frame. -/
structure Framed (sess : Session) (s : LspClient) (complete : List Nat) : Prop where
  nodup : complete.Nodup
  mem : ∀ c, c ∈ complete ↔ s.accepted c = (s.frame sess c).length
  single : ∀ c c', PartlyWritten sess s c → PartlyWritten sess s c' → c = c'
  whole : (∀ c, ¬PartlyWritten sess s c) → s.wire = complete.flatMap (s.frame sess)
  partly : ∀ c, PartlyWritten sess s c →
    s.wire = complete.flatMap (s.frame sess) ++ (s.frame sess c).take (s.accepted c)

theorem frame_head (sess : Session) (s : LspClient) (c : Nat) :
    ∃ rest, s.frame sess c = 0x43 :: 0x6F :: rest := by
  rw [frame, encodeMessage, contentLengthLine_eq]
  exact ⟨_, rfl⟩

theorem frame_pos (sess : Session) (s : LspClient) (c : Nat) : 0 < (s.frame sess c).length := by
  obtain ⟨rest, hframe⟩ := frame_head sess s c
  rw [hframe]
  exact Nat.succ_pos _

/-- Whether a frame is partly written or not, the wire holds the complete ones and then at
most a piece of another. -/
theorem Framed.wire_eq {sess : Session} {s : LspClient} {complete : List Nat}
    (h : Framed sess s complete) :
    ∃ part, s.wire = complete.flatMap (s.frame sess) ++ part ∧
      (part = [] ∨ ∃ c, c ∉ complete ∧ part <+: s.frame sess c) := by
  by_cases hpartly : ∃ c, PartlyWritten sess s c
  · obtain ⟨c, hc⟩ := hpartly
    refine ⟨_, h.partly c hc, .inr ⟨c, ?_, List.take_prefix _ _⟩⟩
    rw [h.mem]
    exact hc.2.ne
  · refine ⟨[], ?_, .inl rfl⟩
    rw [List.append_nil]
    exact h.whole fun c hc => hpartly ⟨c, hc⟩

section Steps

variable {sess : Session} {s s' : LspClient} {a : Action}

theorem Step.frame_eq (h : Step sess s a s') {c : Nat} (hc : s.stage c ≠ .idle) :
    s'.frame sess c = s.frame sess c := by
  simp only [frame, message, h.ids_eq hc]

theorem written_of_step (h : Step sess s a s') (ha : ∀ c n, a ≠ .accept c n) :
    s'.accepted = s.accepted ∧ s'.wire = s.wire := by
  cases h with
  | accept => exact absurd rfl (ha _ _)
  | @dispatch msg rest =>
      rcases dispatchMessage_cases s msg with hroute | ⟨id, c, hid, hpending⟩
      · rw [dispatchMessage_unrouted hroute]
        exact ⟨rfl, rfl⟩
      · rw [dispatchMessage_routed hid hpending]
        exact ⟨rfl, rfl⟩
  | _ => exact ⟨rfl, rfl⟩

theorem afterWrite_ne_writing (sess : Session) (c : Nat) : afterWrite sess c ≠ .writing := by
  rcases afterWrite_cases sess c with ⟨-, hstage⟩ | ⟨-, hstage⟩ <;> rw [hstage] <;>
    exact Stage.noConfusion

theorem afterFailure_ne_writing (sess : Session) (c : Nat) (error : LspError) :
    afterFailure sess c error ≠ .writing := by
  rcases afterFailure_cases sess c error with ⟨-, hstage⟩ | ⟨-, hstage⟩ <;> rw [hstage] <;>
    exact Stage.noConfusion

theorem Exclusive.holder_step (hx : Exclusive sess s) (h : Step sess s a s') (c : Nat) :
    s'.stage c = .writing ↔ s'.writer = some c := by
  have hkeep : ∀ c' stage, s.stage c' ≠ .writing → stage ≠ .writing →
      (update s.stage c' stage c = .writing ↔ s.writer = some c) := by
    intro c' stage hold hnew
    rw [update_apply, ← hx.holder]
    split
    · rename_i heq
      rw [heq]
      exact ⟨fun h => absurd h hnew, fun h => absurd h hold⟩
    · exact Iff.rfl
  have hrelease : ∀ c' stage, s.stage c' = .writing → stage ≠ .writing →
      (update s.stage c' stage c = .writing ↔ (none : Option Nat) = some c) := by
    intro c' stage hold hnew
    refine ⟨fun hwriting => ?_, nofun⟩
    rw [update_apply] at hwriting
    split at hwriting
    · exact absurd hwriting hnew
    · rename_i hne
      have hwriter := (hx.holder c').mp hold
      rw [(hx.holder c).mp hwriting] at hwriter
      exact absurd (Option.some.inj hwriter) hne
  cases h with
  | @lock c' stage free =>
      simp only [setStage_stage, setStage_writer, acquire_stage, acquire_writer, update_apply,
        Option.some.injEq]
      split
      · rename_i heq
        exact ⟨fun _ => heq.symm, fun _ => rfl⟩
      · rename_i hne
        rw [hx.holder, free]
        exact ⟨nofun, fun heq => absurd heq.symm hne⟩
  | flushed stage => exact hrelease _ _ stage (afterWrite_ne_writing sess _)
  | writeTimeout stage => exact hrelease _ _ stage (afterFailure_ne_writing sess _ _)
  | writeError stage => exact hrelease _ _ stage (afterFailure_ne_writing sess _ _)
  | dispatch =>
      rw [dispatchMessage_stage, dispatchMessage_writer]
      exact hx.holder c
  | accept | arrive | resolve | stop | clear => exact hx.holder c
  | takeId _ stage | register stage | notify _ stage | expire stage | receive stage
  | receiveClosed stage | unregisterFailed stage | unregisterExpired stage =>
      exact hkeep _ _ (by rw [stage]; exact Stage.noConfusion) Stage.noConfusion

theorem beforeWrite_of_step (h : Step sess s a s') {c : Nat}
    (hc : beforeWrite (s'.stage c) = true) : beforeWrite (s.stage c) = true := by
  rcases h.stage_moves c with hsame | hmoves
  · rwa [← hsame]
  · generalize s'.stage c = stage at hmoves hc
    cases hmoves with
    | taken _ stage | registered stage | notified _ stage =>
        rw [stage]
        rfl
    | _ => cases hc

theorem not_idle_of_accepted (hx : Exclusive sess s) {c : Nat} (hpos : 0 < s.accepted c) :
    s.stage c ≠ .idle := by
  intro hidle
  rw [hx.unwritten c (by rw [hidle]; rfl)] at hpos
  exact absurd hpos (Nat.lt_irrefl 0)

theorem Exclusive.step (hx : Exclusive sess s) (h : Step sess s a s') : Exclusive sess s' := by
  by_cases ha : ∃ c n, a = .accept c n
  · obtain ⟨c, n, rfl⟩ := ha
    refine ⟨hx.holder_step h, ?_, ?_⟩
    · intro c' hc'
      cases h with
      | accept stage =>
          have hne : c' ≠ c := by
            rintro rfl
            rw [transmit_stage, stage] at hc'
            cases hc'
          rw [transmit_accepted, update_of_ne hne]
          exact hx.unwritten c' hc'
    · intro c'
      cases h with
      | accept stage pos fits =>
          rw [transmit_accepted, update_apply]
          split
          · rename_i heq
            rw [heq]
            exact fits
          · exact hx.bounded c'
  · obtain ⟨haccepted, -⟩ := written_of_step h fun c n heq => ha ⟨c, n, heq⟩
    refine ⟨hx.holder_step h, ?_, ?_⟩
    · intro c hc
      rw [haccepted]
      exact hx.unwritten c (beforeWrite_of_step h hc)
    · intro c
      rw [haccepted]
      rcases Nat.eq_zero_or_pos (s.accepted c) with hzero | hpos
      · rw [hzero]
        exact Nat.zero_le _
      · rw [Step.frame_eq h (not_idle_of_accepted hx hpos)]
        exact hx.bounded c

theorem Framed.step_other (hx : Exclusive sess s) {complete : List Nat}
    (hf : Framed sess s complete) (h : Step sess s a s') (ha : ∀ c n, a ≠ .accept c n) :
    Framed sess s' complete := by
  obtain ⟨haccepted, hwire⟩ := written_of_step h ha
  have hframe : ∀ c, 0 < s.accepted c → s'.frame sess c = s.frame sess c :=
    fun c hpos => Step.frame_eq h (not_idle_of_accepted hx hpos)
  have hpartly : ∀ c, PartlyWritten sess s' c ↔ PartlyWritten sess s c := by
    intro c
    unfold PartlyWritten
    rw [haccepted]
    exact and_congr_right fun hpos => by rw [hframe c hpos]
  have hcomplete : complete.flatMap (s'.frame sess) = complete.flatMap (s.frame sess) := by
    refine List.flatMap_congr fun c hc => hframe c ?_
    rw [(hf.mem c).mp hc]
    exact frame_pos sess s c
  refine ⟨hf.nodup, ?_, ?_, ?_, ?_⟩
  · intro c
    rw [haccepted, hf.mem]
    rcases Nat.eq_zero_or_pos (s.accepted c) with hzero | hpos
    · have := frame_pos sess s c
      have := frame_pos sess s' c
      omega
    · rw [hframe c hpos]
  · intro c c' hc hc'
    exact hf.single c c' ((hpartly c).mp hc) ((hpartly c').mp hc')
  · intro hnone
    rw [hwire, hcomplete]
    exact hf.whole fun c hc => hnone c ((hpartly c).mpr hc)
  · intro c hc
    have hold := (hpartly c).mp hc
    rw [hwire, hcomplete, haccepted, hframe c hold.1]
    exact hf.partly c hold

section Transmit

variable (hx : Exclusive sess s) (hintact : ∀ c', ¬Torn sess s c') {c n : Nat}
  (stage : s.stage c = .writing)
include hx hintact stage

/-- While no frame is torn only the holder of the lock has a frame partly written. -/
theorem partly_holder {c' : Nat} (hpartly : PartlyWritten sess s c') : c' = c := by
  have hwriting : s.stage c' = .writing := by
    by_contra hne
    exact hintact c' ⟨hpartly, hne⟩
  have hholder := (hx.holder c').mp hwriting
  rw [(hx.holder c).mp stage] at hholder
  exact (Option.some.inj hholder).symm

theorem partly_transmit {c' : Nat} (hpartly : PartlyWritten sess (s.transmit sess c n) c') :
    c' = c := by
  by_contra hne
  refine hne (partly_holder hx hintact stage ?_)
  unfold PartlyWritten at hpartly ⊢
  rwa [transmit_accepted, update_of_ne hne] at hpartly

theorem Framed.wire_transmit {complete : List Nat} (hf : Framed sess s complete)
    (hunfinished : s.accepted c < (s.frame sess c).length) :
    (s.transmit sess c n).wire =
      complete.flatMap (s.frame sess) ++ (s.frame sess c).take (s.accepted c + n) := by
  have hwire : s.wire =
      complete.flatMap (s.frame sess) ++ (s.frame sess c).take (s.accepted c) := by
    by_cases hpartly : PartlyWritten sess s c
    · exact hf.partly c hpartly
    · have hzero : s.accepted c = 0 := by
        unfold PartlyWritten at hpartly
        omega
      have hnone : ∀ c', ¬PartlyWritten sess s c' := by
        intro c' hc'
        rw [partly_holder hx hintact stage hc'] at hc'
        exact hpartly hc'
      rw [hzero, List.take_zero, List.append_nil]
      exact hf.whole hnone
  rw [transmit_wire, hwire, List.append_assoc, List.take_add]

/-- The last bytes of a frame complete it. -/
theorem Framed.transmit_full {complete : List Nat} (hf : Framed sess s complete) (pos : 0 < n)
    (hfull : s.accepted c + n = (s.frame sess c).length) :
    Framed sess (s.transmit sess c n) (complete ++ [c]) := by
  have hnone : ∀ c', ¬PartlyWritten sess (s.transmit sess c n) c' := by
    intro c' hpartly
    cases partly_transmit hx hintact stage hpartly
    have hlt := hpartly.2
    rw [transmit_accepted, update_self, hfull] at hlt
    exact Nat.lt_irrefl _ hlt
  have hc : c ∉ complete := by
    rw [hf.mem]
    omega
  refine ⟨?_, ?_, ?_, ?_, ?_⟩
  · refine List.nodup_append.mpr ⟨hf.nodup, List.nodup_singleton c, ?_⟩
    rintro c₁ hc₁ c₂ hc₂ rfl
    rw [List.mem_singleton.mp hc₂] at hc₁
    exact hc hc₁
  · intro c'
    rw [transmit_accepted, update_apply, List.mem_append, List.mem_singleton, hf.mem]
    split
    · rename_i heq
      rw [heq]
      exact ⟨fun _ => hfull, fun _ => .inr rfl⟩
    · exact ⟨fun h => h.resolve_right ‹_›, .inl⟩
  · intro c' _ hc' _
    exact absurd hc' (hnone c')
  · intro _
    rw [hf.wire_transmit hx hintact stage (by omega), hfull, List.take_length,
      List.flatMap_append, List.flatMap_singleton]
    rfl
  · intro c' hc'
    exact absurd hc' (hnone c')

theorem Framed.transmit_short {complete : List Nat} (hf : Framed sess s complete) (pos : 0 < n)
    (hshort : s.accepted c + n < (s.frame sess c).length) :
    Framed sess (s.transmit sess c n) complete := by
  refine ⟨hf.nodup, ?_, ?_, ?_, ?_⟩
  · intro c'
    rw [transmit_accepted, update_apply, hf.mem]
    split
    · rename_i heq
      rw [heq]
      exact ⟨fun h => by omega, fun h => absurd h hshort.ne⟩
    · exact Iff.rfl
  · intro c₁ c₂ h₁ h₂
    rw [partly_transmit hx hintact stage h₁, partly_transmit hx hintact stage h₂]
  · intro hnone
    refine absurd ?_ (hnone c)
    unfold PartlyWritten
    rw [transmit_accepted, update_self]
    exact ⟨by omega, hshort⟩
  · intro c' hc'
    cases partly_transmit hx hintact stage hc'
    rw [hf.wire_transmit hx hintact stage (by omega), transmit_accepted, update_self]
    rfl

theorem Framed.step_accept {complete : List Nat} (hf : Framed sess s complete) (pos : 0 < n)
    (fits : s.accepted c + n ≤ (s.frame sess c).length) :
    ∃ complete', Framed sess (s.transmit sess c n) complete' := by
  rcases Nat.eq_or_lt_of_le fits with hfull | hshort
  · exact ⟨_, hf.transmit_full hx hintact stage pos hfull⟩
  · exact ⟨_, hf.transmit_short hx hintact stage pos hshort⟩

end Transmit

theorem exclusive_new : Exclusive sess .new where
  holder _ := ⟨nofun, nofun⟩
  unwritten _ _ := rfl
  bounded _ := Nat.zero_le _

theorem framed_of_run {actions : List Action}
    (hrun : (client sess).Run (Intact sess) .new actions s) :
    Exclusive sess s ∧ ∃ complete, Framed sess s complete := by
  refine hrun.invariant (P := fun s => Exclusive sess s ∧ ∃ complete, Framed sess s complete)
    ⟨exclusive_new, [], ?_⟩ ?_
  · refine ⟨List.nodup_nil, ?_, ?_, fun _ => rfl, ?_⟩
    · intro c
      have hpos := frame_pos sess .new c
      exact ⟨nofun, fun h => absurd h.symm hpos.ne'⟩
    · intro c _ hc
      exact absurd hc.1 (Nat.lt_irrefl 0)
    · intro c hc
      exact absurd hc.1 (Nat.lt_irrefl 0)
  · rintro u a u' ⟨hx, complete, hf⟩ hintact hstep
    have hstep := step_iff.mp hstep
    refine ⟨hx.step hstep, ?_⟩
    by_cases ha : ∃ c n, a = .accept c n
    · obtain ⟨c, n, rfl⟩ := ha
      have hintact := hintact c n rfl
      cases hstep with
      | accept stage pos fits => exact hf.step_accept hx hintact stage pos fits
    · exact ⟨complete, hf.step_other hx hstep fun c n heq => ha ⟨c, n, heq⟩⟩

theorem torn_of_step (hx : Exclusive sess s) (h : Step sess s a s') {c : Nat}
    (htorn : Torn sess s c) (hintact : Intact sess s a) :
    Torn sess s' c ∧ s'.wire = s.wire := by
  have ha : ∀ c' n, a ≠ .accept c' n := fun c' n heq => hintact c' n heq c htorn
  obtain ⟨haccepted, hwire⟩ := written_of_step h ha
  have hframe := Step.frame_eq h (not_idle_of_accepted hx htorn.1.1)
  refine ⟨⟨?_, ?_⟩, hwire⟩
  · unfold PartlyWritten
    rw [haccepted, hframe]
    exact htorn.1
  · intro hwriting
    rcases h.stage_moves c with hsame | hmoves
    · exact htorn.2 (hsame.symm.trans hwriting)
    · rw [hwriting] at hmoves
      cases hmoves with
      | locked stage =>
          have hzero := hx.unwritten c (by rw [stage]; rfl)
          have hpos := htorn.1.1
          omega

/-- Behind a torn frame nothing is ever written. -/
theorem torn_of_run (hx : Exclusive sess s) {c : Nat} (htorn : Torn sess s c)
    {actions : List Action} (hrun : (client sess).Run (Intact sess) s actions s') :
    s'.wire = s.wire := by
  have hall : Exclusive sess s' ∧ Torn sess s' c ∧ s'.wire = s.wire := by
    refine hrun.invariant
      (P := fun t => Exclusive sess t ∧ Torn sess t c ∧ t.wire = s.wire) ⟨hx, htorn, rfl⟩ ?_
    rintro u a u' ⟨hx, htorn, hwire⟩ hintact hstep
    have hstep := step_iff.mp hstep
    obtain ⟨htorn', hwire'⟩ := torn_of_step hx hstep htorn hintact
    exact ⟨hx.step hstep, htorn', hwire'.trans hwire⟩
  exact hall.2.2

/-- What a decoder at the other end sees: the complete frames. -/
theorem Framed.drain {complete : List Nat} (hf : Framed sess s complete)
    (hdeliverable : ∀ c, 0 < s.accepted c → Deliverable sess.serde (s.message sess c)) :
    (drain sess.serde 64 (new.feed s.wire)).events =
        complete.map (fun c => .frame (s.message sess c)) ∧
      (drain sess.serde 64 (new.feed s.wire)).result = .ok () := by
  let blocks : List (Block sess.serde) := complete.map fun c => .message (s.message sess c)
  have hbytes : blocks.flatMap Block.bytes = complete.flatMap (s.frame sess) := by
    simp only [blocks, List.flatMap_map]
    rfl
  have hevents : blocks.flatMap Block.events =
      complete.map fun c => .frame (s.message sess c) := by
    simp only [blocks, List.flatMap_map]
    exact List.map_eq_flatMap.symm
  have hblocks : ∀ msg, Block.message msg ∈ blocks → Deliverable sess.serde msg := by
    intro msg hmsg
    obtain ⟨c, hc, heq⟩ := List.mem_map.mp hmsg
    cases heq
    refine hdeliverable c ?_
    rw [(hf.mem c).mp hc]
    exact frame_pos sess s c
  have hrest : ∃ part, s.wire = complete.flatMap (s.frame sess) ++ part ∧
      ∃ state rest, (machine sess.serde 64).drain (.headers 0 none) part =
        ([], .waiting state rest) := by
    by_cases hpartly : ∃ c, PartlyWritten sess s c
    · obtain ⟨c, hc⟩ := hpartly
      refine ⟨_, hf.partly c hc, ?_⟩
      refine drain_message_short (hdeliverable c hc.1)
        (List.take_append_drop (s.accepted c) (s.frame sess c)) ?_
      rw [Ne, List.drop_eq_nil_iff, Nat.not_le]
      exact hc.2
    · refine ⟨[], ?_, _, _, drain_nil⟩
      rw [List.append_nil]
      exact hf.whole fun c hc => hpartly ⟨c, hc⟩
  obtain ⟨part, hwire, state, rest, hdrain⟩ := hrest
  have hrefines := drain_feed_refines sess.serde 64 s.wire
  rw [hwire, ← hbytes, drain_blocks hblocks part, hdrain, List.append_nil, hevents] at hrefines
  rw [hwire, ← hbytes]
  exact ⟨hrefines.1, hrefines.2.1⟩

end Steps

/-- While no byte is written behind a torn frame, the wire carries the frames of
distinct calls and at most a part of one more frame: that of the holder of the
lock, or a torn one, behind which nothing follows. A decoder sees the messages of
the complete frames. -/
theorem wire_framed (sess : Session) (actions : List Action) (s : LspClient)
    (hrun : (client sess).Run (Intact sess) .new actions s) :
    ∃ (complete : List Nat) (part : List UInt8), complete.Nodup ∧
      (∀ c, c ∈ complete ↔ s.accepted c = (s.frame sess c).length) ∧
      s.wire = complete.flatMap (s.frame sess) ++ part ∧
      (part = [] ∨ ∃ c, part ≠ [] ∧ part <+: s.frame sess c ∧ part ≠ s.frame sess c ∧
        c ∉ complete ∧ (s.writer = some c ∨ Torn sess s c ∧
          ∀ more t, (client sess).Run (Intact sess) s more t → t.wire = s.wire)) ∧
      ((∀ c, 0 < s.accepted c → Deliverable sess.serde (s.message sess c)) →
        (drain sess.serde 64 (new.feed s.wire)).events =
            complete.map (fun c => .frame (s.message sess c)) ∧
          (drain sess.serde 64 (new.feed s.wire)).result = .ok ()) := by
  obtain ⟨hx, complete, hf⟩ := framed_of_run hrun
  by_cases hpartly : ∃ c, PartlyWritten sess s c
  · obtain ⟨c, hc⟩ := hpartly
    refine ⟨complete, _, hf.nodup, hf.mem, hf.partly c hc, .inr ⟨c, ?_, ?_, ?_, ?_, ?_⟩, hf.drain⟩
    · have hpos := hc.1
      have hlt := hc.2
      intro hnil
      have hlength := congrArg List.length hnil
      rw [List.length_take, List.length_nil] at hlength
      omega
    · exact List.take_prefix _ _
    · have hlt := hc.2
      intro heq
      have hlength := congrArg List.length heq
      rw [List.length_take] at hlength
      omega
    · rw [hf.mem]
      exact hc.2.ne
    · by_cases hwriting : s.stage c = .writing
      · exact .inl ((hx.holder c).mp hwriting)
      · exact .inr ⟨⟨hc, hwriting⟩, fun more t hrun' => torn_of_run hx ⟨hc, hwriting⟩ hrun'⟩
  · refine ⟨complete, [], hf.nodup, hf.mem, ?_, .inl rfl, hf.drain⟩
    rw [List.append_nil]
    exact hf.whole fun c hc => hpartly ⟨c, hc⟩

theorem not_torn {sess : Session} {s : LspClient}
    (h : ∀ c, s.accepted c = 0 ∨ s.accepted c = (s.frame sess c).length) (c : Nat) :
    ¬Torn sess s c := by
  rintro ⟨⟨hpos, hlt⟩, -⟩
  rcases h c with hzero | hfull
  · omega
  · omega

def closingHalfway : List Action :=
  [.takeId 0, .register 0, .lock 0, .accept 0 80, .flushed 0, .notify 1, .lock 1, .accept 1 3]

theorem wire_closingHalfway :
    ∃ s, (client closing).play .new closingHalfway = some s ∧
      ∃ (complete : List Nat) (part : List UInt8), complete.Nodup ∧
        (∀ c, c ∈ complete ↔ s.accepted c = (s.frame closing c).length) ∧
        s.wire = complete.flatMap (s.frame closing) ++ part := by
  have hrun : ∃ s, (client closing).play .new closingHalfway = some s ∧
      (client closing).Run (Intact closing) .new closingHalfway s := by
    refine ⟨_, rfl, .cons nofun rfl (.cons nofun rfl (.cons nofun rfl (.cons ?_ rfl
      (.cons nofun rfl (.cons nofun rfl (.cons nofun rfl (.cons ?_ rfl .start)))))))⟩
    · exact fun _ _ _ => not_torn fun c => .inl rfl
    · intro _ _ _
      refine not_torn fun c => ?_
      rcases c with _ | c
      · exact .inr rfl
      · exact .inl rfl
  obtain ⟨s, hplay, hrun⟩ := hrun
  obtain ⟨complete, part, hnodup, hmem, hwire, -⟩ := wire_framed closing closingHalfway s hrun
  exact ⟨s, hplay, complete, part, hnodup, hmem, hwire⟩

def shutdownTorn : List Action :=
  [.takeId 0, .register 0, .lock 0, .accept 0 1, .writeTimeout 0, .unregister 0, .notify 1,
    .lock 1, .accept 1 69, .flushed 1]

theorem wire_shutdownTorn :
    ∃ s, (client closing).play .new shutdownTorn = some s ∧
      s.stage 1 = .returned (.ok .null) ∧
      ¬∃ (complete : List Nat) (part : List UInt8),
        s.wire = complete.flatMap (s.frame closing) ++ part ∧
          ∃ c, part <+: s.frame closing c := by
  have htorn : ∃ s, (client closing).play .new shutdownTorn = some s ∧
      s.stage 1 = .returned (.ok .null) ∧ s.wire.take 2 = [0x43, 0x43] := by
    refine ⟨_, rfl, rfl, ?_⟩
    rfl
  obtain ⟨s, hplay, hstage, htake⟩ := htorn
  have hhead : ∀ c rest, s.wire ≠ s.frame closing c ++ rest := by
    intro c rest hwire
    obtain ⟨tail, hframe⟩ := frame_head closing s c
    rw [hwire, hframe] at htake
    simp at htake
  refine ⟨s, hplay, hstage, ?_⟩
  rintro ⟨complete, part, hwire, c, more, hmore⟩
  rcases complete with _ | ⟨c', complete⟩
  · obtain ⟨tail, hframe⟩ := frame_head closing s c
    rw [List.flatMap_nil, List.nil_append] at hwire
    rw [hwire] at htake
    rw [hframe] at hmore
    rcases part with _ | ⟨b, _ | ⟨b', part⟩⟩
    · cases htake
    · cases htake
    · cases htake
      cases hmore
  · rw [List.flatMap_cons, List.append_assoc] at hwire
    exact hhead c' _ hwire

end IntentumdiffLsp.Wire
