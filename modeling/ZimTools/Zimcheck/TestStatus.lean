import ZimTools.Zimcheck.ArticleChecker

/-!
# The status of the tests

A message lets the test of its kind fail.  So the status that the logger has of
each test, and the overall status, depend on which kinds of messages have been
reported and on nothing else.
-/

namespace ZimTools

open Zimcheck

/-- The calls of `addMsg` for a list of messages. -/
def ErrorLogger.addMsgs (render : Bytes → MsgParams → Bytes) (l : ErrorLogger)
    (messages : List Msg) : Option ErrorLogger :=
  messages.foldlM (fun l m => l.addMsg render m.msgId m.msgParams) l

namespace Zimcheck

/-- The test that a message is about. -/
def Msg.check (m : Msg) : TestType := (msgTable m.msgId).check

/-- The status of the tests behind some messages. -/
def statusAfter (testStatus : EnabledTests) (messages : List Msg) : EnabledTests :=
  messages.foldl (fun testStatus m => Function.update testStatus m.check false) testStatus

def overallStatus (testStatus : EnabledTests) : Bool :=
  TestType.all.all fun t => (errormapping t).1 != .error || testStatus t

theorem testStatus_addMsg {render : Bytes → MsgParams → Bytes} {l l' : ErrorLogger} {m : Msg}
    (h : l.addMsg render m.msgId m.msgParams = some l') :
    l'.testStatus = Function.update l.testStatus m.check false := by
  rw [ErrorLogger.addMsg] at h
  dsimp only at h
  split at h
  · rw [Option.bind_eq_bind, Option.bind_eq_some_iff] at h
    obtain ⟨out, -, h⟩ := h
    rw [← Option.some.inj h]
    rfl
  · rw [← Option.some.inj h]
    rfl

/-- The logger has this status. -/
theorem testStatus_addMsgs {render : Bytes → MsgParams → Bytes} : ∀ {messages : List Msg}
    {l l' : ErrorLogger}, l.addMsgs render messages = some l' →
    l'.testStatus = statusAfter l.testStatus messages
  | [], l, l', h => by
      rw [← Option.some.inj h]
      rfl
  | m :: messages, l, l', h => by
      rw [ErrorLogger.addMsgs, List.foldlM_cons, Option.bind_eq_bind, Option.bind_eq_some_iff] at h
      obtain ⟨l₁, hm, hrest⟩ := h
      rw [testStatus_addMsgs hrest, testStatus_addMsg hm]
      rfl

theorem overallStatus_testStatus (l : ErrorLogger) :
    l.overallStatus = overallStatus l.testStatus := rfl

/-- A test fails behind a message about it. -/
theorem statusAfter_eq (testStatus : EnabledTests) (messages : List Msg) (t : TestType) :
    statusAfter testStatus messages t =
      (testStatus t && messages.all fun m => m.check != t) := by
  induction messages generalizing testStatus with
  | nil => simp [statusAfter]
  | cons m messages ih =>
      rw [statusAfter, List.foldl_cons, ← statusAfter, ih, List.all_cons]
      by_cases hm : m.check = t
      · subst hm
        simp
      · have hne : (m.check != t) = true := bne_iff_ne.mpr hm
        rw [Function.update_of_ne (Ne.symm hm), hne, Bool.true_and]

/-- Messages of the same tests leave the same status. -/
theorem statusAfter_congr {messages messages' : List Msg} (testStatus : EnabledTests)
    (h : ∀ t, (∃ m ∈ messages, m.check = t) ↔ ∃ m ∈ messages', m.check = t) :
    statusAfter testStatus messages = statusAfter testStatus messages' := by
  funext t
  have hall : (messages.all fun m => m.check != t) = messages'.all fun m => m.check != t := by
    rw [Bool.eq_iff_iff]
    have ht := h t
    simp only [List.all_eq_true, bne_iff_ne, ne_eq]
    rw [← not_iff_not]
    push Not
    exact ht
  rw [statusAfter_eq, statusAfter_eq, hall]

end Zimcheck
end ZimTools
