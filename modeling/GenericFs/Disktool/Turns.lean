import GenericFs.Disktool.Menu

namespace GenericFs.Disktool

open GenericFs.Library Store Returning Refining

def AtMost (n : ℕ) (u : Terminal) : Prop := u.keys.length ≤ n

variable {w : World} {g : Sizes} {α β : Type} {n m i row counter total choice : ℕ} {u u' : Terminal}
  {keys keys' : List UInt8} {key byte : UInt8} {s s' : Station} {ws : Workspace}

section Dialogs

theorem length_after (h : after key keys = some keys') : keys'.length ≤ keys.length := by
  induction keys with
  | nil => contradiction
  | cons k keys ih =>
    rw [after] at h
    split_ifs at h
    · rw [← Option.some.inj h]
      exact Nat.le_succ _
    · exact (ih h).trans (Nat.le_succ _)

theorem stable_send {calls : List Call} : Stable (AtMost n) (send calls) := .modify fun _ h ↦ h

theorem stable_getch : Stable (AtMost n) getch := by
  apply Stable.get_bind
  intro u hu
  cases hkeys : u.keys with
  | nil => exact .throw _
  | cons key keys =>
    rw [AtMost, hkeys, List.length_cons] at hu
    exact Stable.bind (.modify fun _ _ ↦ (Nat.lt_of_succ_le hu).le) fun _ ↦ .pure _

theorem stable_await : Stable (AtMost n) (await key) := by
  apply Stable.get_bind
  intro u hu
  cases hafter : after key u.keys with
  | none => exact Stable.bind (.modify fun _ _ ↦ Nat.zero_le n) fun _ ↦ .throw _
  | some keys => exact .modify fun _ _ ↦ (length_after hafter).trans hu

theorem stable_continueMessage : Stable (AtMost n) (continueMessage w) :=
  stable_send.bind fun _ ↦ stable_await

theorem stable_getLine : Stable (AtMost n) (getLine w) := by
  apply Stable.get_bind
  intro u hu
  cases hline : w.lineInput u.keys with
  | none => exact Stable.bind (.modify fun _ _ ↦ Nat.zero_le n) fun _ ↦ .throw _
  | some input =>
    refine Stable.bind (.modify fun _ _ ↦ ?_) fun _ ↦ .pure _
    exact ((List.drop_sublist _ _).length_le).trans hu

theorem stable_scanString : Stable (AtMost n) (scanString w) := stable_getLine.bind fun _ ↦ .pure _

theorem stable_scanUnsigned : Stable (AtMost n) (scanUnsigned w) := by
  refine stable_getLine.bind fun line ↦ ?_
  cases scanNumber line with
  | none => exact .pure _
  | some z => exact .ite (.pure _) (.throw _)

theorem stable_scanInt : Stable (AtMost n) (scanInt w) := by
  refine stable_getLine.bind fun line ↦ ?_
  cases scanNumber line with
  | none => exact .pure _
  | some z => exact .ite (.pure _) (.throw _)

theorem stable_time : Stable (AtMost n) (time w) :=
  .get_bind fun _ h ↦ Stable.bind (.modify fun _ _ ↦ h) fun _ ↦ .pure _

theorem stable_malloc : Stable (AtMost n) (malloc w) :=
  .get_bind fun _ h ↦ Stable.bind (.modify fun _ _ ↦ h) fun _ ↦ .pure _

theorem stable_pause : Stable (AtMost n) (pause w m counter) := by
  have hturn : Stable (AtMost n) (turnPage w) :=
    stable_send.bind fun _ ↦ stable_getch.bind fun _ ↦ stable_send.bind fun _ ↦ .pure _
  exact .ite (.throw _) (.ite hturn (.pure _))

theorem stable_showBits : Stable (AtMost n) (showBits total byte m i counter) := by
  induction m generalizing i counter with
  | zero => exact .pure _
  | succ m ih => exact stable_send.bind fun _ ↦ .ite (.pure _) ih

theorem stable_showBytes : Stable (AtMost n) (showBytes w total ws m i row counter) := by
  induction m generalizing i row counter with
  | zero => exact .pure _
  | succ m ih =>
    refine stable_pause.bind fun quits ↦ .ite (.pure _) (stable_send.bind fun _ ↦ ?_)
    refine stable_showBits.bind fun shown ↦ ?_
    cases shown with
    | none => exact .pure _
    | some counter => exact ih

theorem stable_showLines : Stable (AtMost n) (showLines w ws m i row) := by
  induction m generalizing i row with
  | zero => exact .pure _
  | succ m ih => exact stable_pause.bind fun _ ↦ .ite (.pure _) (stable_send.bind fun _ ↦ ih)

theorem stable_askInode : Stable (AtMost n) (askInode w total) := by
  refine stable_send.bind fun _ ↦ stable_scanInt.bind fun choice ↦ ?_
  cases choice with
  | none => exact .throw _
  | some choice => exact stable_send.bind fun _ ↦ .pure _

theorem stable_askBlock : Stable (AtMost n) (askBlock w total) := by
  refine stable_send.bind fun _ ↦ stable_scanUnsigned.bind fun choice ↦ ?_
  cases choice with
  | none => exact .throw _
  | some choice =>
    refine stable_send.bind fun _ ↦ .ite ?_ (.pure _)
    exact stable_send.bind fun _ ↦ stable_continueMessage.bind fun _ ↦ .pure _

theorem stable_askFile : Stable (AtMost n) (askFile w) := by
  refine stable_time.bind fun now ↦ stable_send.bind fun _ ↦ stable_scanString.bind fun name ↦ ?_
  refine .ite (.throw _) (stable_send.bind fun _ ↦ stable_scanUnsigned.bind fun size ↦ ?_)
  refine .ite (stable_send.bind fun _ ↦ stable_continueMessage.bind fun _ ↦ .pure _)
    (stable_send.bind fun _ ↦ ?_)
  cases name with
  | none => exact .throw _
  | some name => exact .pure _

theorem choose_takes (h : (choose keys).run u = .ok choice u') : u'.keys.length < keys.length := by
  induction keys generalizing u with
  | nil => cases h
  | cons key keys ih =>
    rw [choose] at h
    cases hkey : choiceOf key with
    | none =>
      rw [hkey] at h
      exact (ih h).trans (Nat.lt_succ_self _)
    | some choice =>
      rw [hkey] at h
      cases h
      exact Nat.lt_succ_self _

/-- The menu takes a key at least. -/
theorem menu_takes (h : (menu g).run u = .ok choice u') : u'.keys.length < u.keys.length :=
  choose_takes (u := { u with calls := u.calls ++ menuLines g }) h

end Dialogs

section Options

def Station.AtMost (n : ℕ) (s : Station) : Prop := Disktool.AtMost n s.terminal

theorem stable_onTool {m : Action α} : Stable (Station.AtMost n) (onTool m) :=
  stable_part_of fun _ _ h ↦ h

theorem stable_onTerminal {m : Dialog α} (h : Stable (AtMost n) m) :
    Stable (Station.AtMost n) (onTerminal m) :=
  stable_part (I := AtMost n) (fun _ _ ↦ rfl) h

theorem stable_showBlocks : Stable (Station.AtMost n) (showBlocks w total m row counter ws) := by
  induction m generalizing row counter ws with
  | zero => exact .pure _
  | succ m ih =>
    refine stable_onTool.bind fun ws ↦ (stable_onTerminal stable_showBytes).bind fun shown ↦ ?_
    cases shown with
    | none => exact .pure _
    | some shown => exact ih

theorem stable_showFreemap {start mapBlocks : SuperBlock → ℕ} :
    Stable (Station.AtMost n) (showFreemap w start mapBlocks) := by
  refine (stable_onTerminal stable_send).bind fun _ ↦ stable_onTool.bind fun _ ↦
    stable_onTool.bind fun _ ↦ ?_
  refine stable_onTool.bind fun _ ↦ stable_showBlocks.bind fun _ ↦ ?_
  exact stable_onTerminal stable_continueMessage

theorem stable_initializeOption : Stable (Station.AtMost n) (initializeOption w g) := by
  refine (stable_onTerminal stable_send).bind fun _ ↦ stable_onTool.bind fun _ ↦ ?_
  refine (stable_onTerminal stable_send).bind fun _ ↦
    (Stable.tryCatch stable_onTool fun e ↦ ?_).bind fun _ ↦ ?_
  · split
    · exact (stable_onTerminal (stable_send.bind fun _ ↦ stable_continueMessage)).bind
        fun _ ↦ .throw _
    · exact .throw _
  · refine (stable_onTerminal stable_time).bind fun now ↦
      (stable_onTerminal stable_send).bind fun _ ↦ ?_
    refine stable_onTool.bind fun _ ↦ (stable_onTerminal stable_send).bind fun _ ↦
      stable_onTool.bind fun _ ↦ ?_
    exact stable_onTerminal stable_continueMessage

theorem stable_showSuper : Stable (Station.AtMost n) (showSuper w) := by
  refine (stable_onTerminal stable_send).bind fun _ ↦ stable_onTool.bind fun _ ↦
    stable_onTool.bind fun _ ↦ ?_
  exact stable_onTerminal (stable_send.bind fun _ ↦ stable_continueMessage)

theorem stable_showInode : Stable (Station.AtMost n) (showInode w) := by
  refine (stable_onTerminal stable_send).bind fun _ ↦ stable_onTool.bind fun _ ↦
    stable_onTool.bind fun _ ↦ ?_
  refine (stable_onTerminal stable_askInode).bind fun choice ↦ ?_
  refine stable_onTool.bind fun _ ↦ stable_onTool.bind fun _ ↦ stable_onTool.bind fun _ ↦ ?_
  refine stable_onTool.bind fun _ ↦ stable_onTool.bind fun _ ↦ .ite (.throw _) ?_
  exact stable_onTerminal (stable_send.bind fun _ ↦ stable_continueMessage)

theorem stable_showBlock : Stable (Station.AtMost n) (showBlock w) := by
  refine (stable_onTerminal stable_send).bind fun _ ↦ stable_onTool.bind fun _ ↦
    stable_onTool.bind fun _ ↦ ?_
  refine (stable_onTerminal stable_askBlock).bind fun choice ↦ stable_onTool.bind fun _ ↦ ?_
  refine stable_onTool.bind fun _ ↦ stable_onTerminal ?_
  exact stable_showLines.bind fun _ ↦ stable_continueMessage

theorem stable_showRootDirOption : Stable (Station.AtMost n) (showRootDirOption w) := by
  refine (stable_onTerminal stable_send).bind fun _ ↦ stable_onTool.bind fun _ ↦
    stable_onTool.bind fun _ ↦ ?_
  exact stable_onTerminal (stable_send.bind fun _ ↦ stable_continueMessage)

theorem stable_notImplemented : Stable (AtMost n) (notImplemented w) :=
  stable_send.bind fun _ ↦ stable_continueMessage

theorem stable_createFileOption : Stable (Station.AtMost n) (createFileOption w g) := by
  refine (stable_onTerminal stable_askFile).bind fun asked ↦ ?_
  cases asked with
  | none => exact .pure _
  | some f =>
    refine stable_onTool.bind fun _ ↦ ?_
    exact stable_onTerminal (stable_send.bind fun _ ↦ stable_continueMessage)

theorem stable_verifyOption : Stable (Station.AtMost n) (verifyOption w g) := by
  refine (stable_onTerminal stable_send).bind fun _ ↦
    (stable_onTerminal stable_malloc).bind fun _ ↦ ?_
  refine stable_onTool.bind fun _ ↦ stable_onTool.bind fun _ ↦ ?_
  exact stable_onTerminal (stable_send.bind fun _ ↦ stable_continueMessage)

/-- No option gives keys back. -/
theorem stable_jumpTable : Stable (Station.AtMost n) (jumpTable w g choice) := by
  unfold jumpTable
  split
  · exact stable_initializeOption
  · exact stable_showSuper
  · exact stable_showFreemap
  · exact stable_showFreemap
  · exact stable_showInode
  · exact stable_showBlock
  · exact stable_showRootDirOption
  · exact stable_onTerminal stable_notImplemented
  · exact stable_createFileOption
  · exact stable_onTerminal (stable_time.bind fun _ ↦ stable_notImplemented)
  · exact stable_verifyOption
  · exact .throw _

/-- The loop of `main` does not end for want of turns. -/
theorem mainLoop_turns (hm : s.terminal.keys.length < m) (hn : s.terminal.keys.length < n) :
    (mainLoop w g m).run s = (mainLoop w g n).run s := by
  induction m generalizing n s with
  | zero => omega
  | succ m ih =>
    cases n with
    | zero => omega
    | succ n =>
      rw [mainLoop, mainLoop, EStateM.run_bind, EStateM.run_bind]
      cases hmenu : (onTerminal (menu g)).run s with
      | error e s' => rfl
      | ok choice s' =>
        simp only
        by_cases hexit : choice = 0
        · rw [if_pos hexit, if_pos hexit]
        · rw [if_neg hexit, if_neg hexit, EStateM.run_bind, EStateM.run_bind]
          cases hoption : (jumpTable w g choice).run s' with
          | error e s'' => rfl
          | ok _ s'' =>
            obtain ⟨u, hrun, rfl⟩ := exists_of_part_ok hmenu
            have htakes := menu_takes hrun
            have hleft : s''.terminal.keys.length ≤ u.keys.length :=
              (stable_jumpTable _ le_rfl).1 _ _ hoption
            exact ih (by omega) (by omega)

end Options

end GenericFs.Disktool
