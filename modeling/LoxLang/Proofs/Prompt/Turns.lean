import Mathlib
import LoxLang.Proofs.Machine.Capacity
import LoxLang.Proofs.Prompt.Lines
import LoxLang.Proofs.Session.Runs

/-!
The prompt as one session over its lines: what it writes is what the lines contribute, one turn each.
-/
namespace LoxLang

namespace Output

variable {o : Output} {before : ByteArray} {text : String}

theorem write_empty (hopen : o.capacity = none) : o.write "" = o := by
  obtain ⟨bytes, capacity⟩ := o
  cases hopen
  exact congrArg (Output.mk · none) ByteArray.append_empty

theorem write_write (hopen : o.capacity = none) (text more : String) :
    (o.write text).write more = o.write (text ++ more) := by
  obtain ⟨bytes, capacity⟩ := o
  cases hopen
  simp only [write, String.toUTF8_eq_toByteArray, String.toByteArray_append, ByteArray.append_assoc]

/-- A text behind the first bytes is read back from there. -/
theorem textFrom_of_bytes (h : o.bytes = before ++ text.toUTF8) : o.textFrom before.size = text := by
  have hbytes : o.bytes.extract before.size o.bytes.size = text.toUTF8 := by
    rw [h, ByteArray.extract_append_eq_right rfl ByteArray.size_append]
  have hwhole : String.fromUTF8? (text.toUTF8.extract 0 (text.toUTF8.size - 0)) = some text := by
    rw [Nat.sub_zero, ByteArray.extract_zero_size]
    exact Prompt.fromUTF8?_eq_some.mpr rfl
  simp only [textFrom, hbytes, hwhole]

end Output

/-- Without a capacity, whole texts are written. -/
theorem Config.exists_write {c : Config} (hopen : c.machine.output.capacity = none) (locate : Locator)
    (n : Nat) : ∃ text, ((step locate)^[n] c).machine.output = c.machine.output.write text := by
  induction n with
  | zero => exact ⟨"", (Output.write_empty hopen).symm⟩
  | succ n ih =>
    obtain ⟨text, htext⟩ := ih
    rw [Function.iterate_succ_apply']
    obtain hsame | ⟨more, hmore⟩ := (step_leaves locate ((step locate)^[n] c)).output
    · exact ⟨text, hsame.trans htext⟩
    · exact ⟨text ++ more, by rw [hmore, htext, Output.write_write hopen]⟩

namespace Outcome

def messages : Outcome → List String
  | completed => []
  | rejected faults => faults.map (·.message)
  | failed e => [e.message]

theorem report_eq (o : Outcome) : o.report = String.join (o.messages.map (· ++ "\n")) := by
  cases o with
  | completed => rfl
  | rejected faults => simp only [report, messages, List.map_map]; rfl
  | failed e => simp [report, messages]

end Outcome

structure Turn where
  printed : String
  messages : List String

namespace Turn

def outText (turns : List Turn) : String :=
  String.join (turns.map ("> " ++ ·.printed)) ++ "> \n"

def errText (turns : List Turn) : String :=
  String.join ((turns.flatMap (·.messages)).map (· ++ "\n"))

def transcript (turns : List Turn) : Reply := ⟨0, outText turns, errText turns⟩

def ofTree (line : String) : Turn :=
  let p := Parsed.ofSource line 0
  if p.faults.isEmpty then ⟨Stmt.programText p.program, []⟩ else ⟨"", p.faults.map (·.message)⟩

theorem more_transcript_cons (w : Reply) (turn : Turn) (turns : List Turn) (code : UInt32) :
    ((w.more (.said "> ")).more ⟨code, turn.printed, String.join (turn.messages.map (· ++ "\n"))⟩).more
      (transcript turns) = w.more (transcript (turn :: turns)) := by
  simp [Reply.more, Reply.said, transcript, outText, errText, String.append_assoc]

theorem more_transcript_nil (w : Reply) :
    (w.more (.said "> ")).more (.said "\n") = w.more (transcript []) := by
  simp [Reply.more, Reply.said, transcript, outText, errText, String.append_assoc]

theorem said_more (turns : List Turn) : (Reply.said "").more (transcript turns) = transcript turns := by
  simp [Reply.more, Reply.said, transcript]

end Turn

theorem Reply.ofTree_eq (line : String) : ∃ code, Reply.ofTree line = ⟨code, (Turn.ofTree line).printed,
    String.join ((Turn.ofTree line).messages.map (· ++ "\n"))⟩ := by
  simp only [Reply.ofTree, Turn.ofTree]
  split
  · exact ⟨0, rfl⟩
  · exact ⟨_, congrArg (Reply.mk _ "") (Outcome.report_eq (.rejected (Parsed.ofSource line 0).faults))⟩

namespace Session

variable {limit : Option Nat} {output : Output} {line : String} {lines : List String}
  {turns : List Turn} {n : Nat} {o : Outcome} {s s' s'' : Session}

/-- Runs the lines one after another. Each turn has what its run added to the output, and its messages. -/
inductive Turns : Session → List String → List Turn → Session → Prop where
  | nil {s : Session} : Turns s [] [] s
  | cons {s s' s'' : Session} {line printed : String} {lines : List String} {turns : List Turn}
      {n : Nat} {o : Outcome} :
    s.run n line = some (o, s') →
      s'.machine.output.bytes = s.machine.output.bytes ++ printed.toUTF8 → Turns s' lines turns s'' →
        Turns s (line :: lines) (⟨printed, o.messages⟩ :: turns) s''

theorem exists_write (hopen : s.machine.output.capacity = none) (h : s.run n line = some (o, s')) :
    ∃ text, s'.machine.output = s.machine.output.write text := by
  cases ha : (Parsed.ofSource line s.nextId).accept with
  | error faults =>
    exact ⟨"", by rw [machine_of_run_reject ha h, Output.write_empty hopen]⟩
  | ok a =>
    obtain ⟨signal, m, hrun, hm⟩ := machine_of_run_accept ha h
    obtain ⟨text, htext⟩ := Config.exists_write (c := s.load a) hopen .byDistance n
    rw [hrun] at htext
    obtain hm | hm := hm <;> exact ⟨text, hm ▸ htext⟩

/-- A run adds one text to the output. -/
theorem exists_printed (hopen : s.machine.output.capacity = none) (h : s.run n line = some (o, s')) :
    s'.machine.output.capacity = none ∧
      ∃ printed : String, s'.machine.output.bytes = s.machine.output.bytes ++ printed.toUTF8 := by
  obtain ⟨text, htext⟩ := exists_write hopen h
  refine ⟨by rw [htext, Output.write_capacity, hopen], text, ?_⟩
  rw [htext, Output.write, hopen]

theorem Turns.capacity (h : s.Turns lines turns s') (hopen : s.machine.output.capacity = none) :
    s'.machine.output.capacity = none := by
  induction h with
  | nil => exact hopen
  | cons hrun _ _ ih => exact ih (exists_printed hopen hrun).1

theorem Turns.concat {printed : String} (h : s.Turns lines turns s')
    (hrun : s'.run n line = some (o, s''))
    (hprinted : s''.machine.output.bytes = s'.machine.output.bytes ++ printed.toUTF8) :
    s.Turns (lines ++ [line]) (turns ++ [⟨printed, o.messages⟩]) s'' := by
  induction h with
  | nil => exact .cons hrun hprinted .nil
  | cons hfirst hbytes _ ih => exact .cons hfirst hbytes (ih hrun hprinted)

theorem Reached.exists_turns (h : Reached limit (.empty none) lines s) :
    ∃ turns, (Session.start limit (.empty none)).Turns lines turns s := by
  induction h with
  | start => exact ⟨[], .nil⟩
  | run _ hrun ih =>
    obtain ⟨turns, hturns⟩ := ih
    obtain ⟨-, printed, hprinted⟩ := exists_printed (hturns.capacity rfl) hrun
    exact ⟨_, hturns.concat hrun hprinted⟩

theorem Turns.reached {earlier : List String} (h : s.Turns lines turns s')
    (hs : Reached limit output earlier s) : Reached limit output (earlier ++ lines) s' := by
  induction h generalizing earlier with
  | nil => rwa [List.append_nil]
  | cons hrun _ _ ih => simpa using ih (hs.run hrun)

theorem reply_of_run {printed : String} (h : s.run n line = some (o, s'))
    (hprinted : s'.machine.output.bytes = s.machine.output.bytes ++ printed.toUTF8) :
    s.reply n line = some (⟨o.exitCode, printed, o.report⟩, s') := by
  simp only [reply, h, Option.map_some, Output.textFrom_of_bytes hprinted]

end Session

namespace Prompt

section Dialogue
variable {m : Type → Type} [Monad m] [LawfulMonad m] (write : Reply → m Unit) (steps : Nat) (mode : Mode)
  (s : Session) (line : String) (lines : List String)

theorem dialogue_nil : dialogue write steps mode s ([] : List String) =
    (do write (.said sign); write (.said "\n")) := by
  simp [dialogue]

/-- After an answer the prompt is as at its beginning, in the session that the line has led to. -/
theorem dialogue_cons : dialogue write steps mode s (line :: lines) = (do
    write (.said sign)
    let (r, next) ← OptionT.mk (pure (mode.reply steps s line))
    write r
    dialogue write steps mode next lines) := by
  simp [dialogue]

end Dialogue

section Kept
variable {lines : List String} {turns : List Turn} {steps : Nat} {mode : Mode} {line : String}
  {s s' : Session} {w w' : Reply}

theorem kept_nil : kept steps mode s [] w = some (w.more (Turn.transcript [])) := by
  rw [kept, dialogue_nil, ← Turn.more_transcript_nil]
  rfl

theorem kept_cons : kept steps mode s (line :: lines) w = (mode.reply steps s line).bind fun p =>
    kept steps mode p.2 lines ((w.more (.said sign)).more p.1) := by
  rw [kept, dialogue_cons]
  cases mode.reply steps s line <;> rfl

theorem kept_of_turns (h : s.Turns lines turns s') :
    ∃ n, ∀ steps ≥ n, ∀ w, kept steps .run s lines w = some (w.more (Turn.transcript turns)) := by
  induction h with
  | nil => exact ⟨0, fun _ _ _ => kept_nil⟩
  | @cons s s' s'' line printed lines turns n o hrun hprinted _ ih =>
    -- One bound serves all lines: what a run comes to is kept with more steps.
    obtain ⟨k, hk⟩ := ih
    refine ⟨max n k, fun steps hle w => ?_⟩
    have hrun' := Session.run_le (Nat.le_trans (Nat.le_max_left n k) hle) hrun
    have hreply : Mode.run.reply steps s line = _ := Session.reply_of_run hrun' hprinted
    rw [kept_cons, hreply, Option.bind_some, hk steps (Nat.le_trans (Nat.le_max_right n k) hle),
      Outcome.report_eq]
    exact congrArg some (Turn.more_transcript_cons w ⟨printed, o.messages⟩ turns o.exitCode)

/-- The prompt only comes to an end when each of its runs does. -/
theorem turns_of_kept (hopen : s.machine.output.capacity = none)
    (h : kept steps .run s lines w = some w') :
    ∃ turns s', s.Turns lines turns s' ∧ w' = w.more (Turn.transcript turns) := by
  induction lines generalizing s w with
  | nil => exact ⟨[], s, .nil, Option.some_inj.mp (h.symm.trans kept_nil)⟩
  | cons line lines ih =>
    rw [kept_cons] at h
    obtain ⟨⟨r, s₁⟩, hreply, h⟩ := Option.bind_eq_some_iff.mp h
    obtain ⟨⟨o, s₂⟩, hrun, heq⟩ := Option.map_eq_some_iff.mp hreply
    cases heq
    obtain ⟨hopen', printed, hprinted⟩ := Session.exists_printed hopen hrun
    obtain ⟨turns, s', hturns, rfl⟩ := ih hopen' h
    refine ⟨_, s', .cons hrun hprinted hturns, ?_⟩
    rw [Output.textFrom_of_bytes hprinted, Outcome.report_eq]
    exact Turn.more_transcript_cons w ⟨printed, o.messages⟩ turns o.exitCode

theorem kept_showTree (steps : Nat) (s : Session) (lines : List String) (w : Reply) :
    kept steps .showTree s lines w = some (w.more (Turn.transcript (lines.map .ofTree))) := by
  induction lines generalizing w with
  | nil => exact kept_nil
  | cons line lines ih =>
    obtain ⟨code, hcode⟩ := Reply.ofTree_eq line
    rw [kept_cons, show Mode.showTree.reply steps s line = some (.ofTree line, s) from rfl, hcode,
      Option.bind_some, ih]
    exact congrArg some (Turn.more_transcript_cons w (.ofTree line) (lines.map .ofTree) code)

end Kept

/-- The prompt is one session over the lines of its input. When every run comes to an end it writes their
turns, and it never writes anything else. To show trees takes no step. -/
theorem reply_eq_transcript (limit : Nat) (input : ByteArray) :
    ∃ lines, (∀ texts, IsLines input texts ↔ texts = lines) ∧
      (∀ s, Session.Reached (some limit) (.empty none) lines s ↔
        ∃ turns, Session.Turns (.start (some limit) (.empty none)) lines turns s) ∧
      (∀ turns s, Session.Turns (.start (some limit) (.empty none)) lines turns s →
        ∃ n, ∀ steps ≥ n, reply steps .run limit input = some (Turn.transcript turns)) ∧
      (∀ steps r, reply steps .run limit input = some r →
        ∃ turns s, Session.Turns (.start (some limit) (.empty none)) lines turns s ∧
          r = Turn.transcript turns) ∧
      ∀ steps, reply steps .showTree limit input = some (Turn.transcript (lines.map .ofTree)) := by
  refine ⟨Prompt.lines input, fun texts => isLines_iff, fun s => ⟨Session.Reached.exists_turns, ?_⟩,
    fun turns s hturns => ?_, fun steps r hr => ?_, fun steps => ?_⟩
  · rintro ⟨turns, hturns⟩
    exact hturns.reached .start
  · obtain ⟨n, hn⟩ := kept_of_turns hturns
    exact ⟨n, fun steps hle => (hn steps hle _).trans (congrArg some (Turn.said_more turns))⟩
  · obtain ⟨turns, s, hturns, rfl⟩ := turns_of_kept rfl hr
    exact ⟨turns, s, hturns, Turn.said_more turns⟩
  · exact (kept_showTree ..).trans (congrArg some (Turn.said_more _))

example : reply 20 .run 255 ("print \"a\";\r\n+\nprint".toUTF8.push 255) =
    some ⟨0, "> a\n> > \n", "[line 1] Error at '+': Expect expression.\n"⟩ := by cbv

end Prompt
end LoxLang
