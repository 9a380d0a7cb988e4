/-
**A session with the shell.**

The loop of the shell has a buffer, a draft, a ring of earlier lines and an array of arguments, and all
but the ring are reused without being cleared.  What the user sees of them is far simpler: a line editor
that remembers the lines completed, and for each completed line the calls its words ask for.  Here that
simple machine is written down, as a function of the bytes typed, and the loop is shown to do the same
as it does, whatever its memory holds at the start.

Main definitions:

* `Shell.Action` — a call of the shell, or the echo of a byte;
* `Shell.Session`, `Shell.session` — **what the user sees**, told from the bytes typed;
* `Shell.loggedShell` — the loop with a log of the bytes typed and of its actions;
* `Shell.SessionInv` — the loop and the session agree.

Main results:

* `Shell.sessionInv_step` — what one step of the loop preserves, and that it does not fail;
* `Shell.session_refines` — **the loop does what the session does, and goes on as long as its calls come
  back**.
-/

import MiniOs.ShellRun

set_option relaxedAutoImplicit false
set_option autoImplicit false

namespace MiniOs

namespace Shell

open CString
open Console (Editor Status Shows HistoryHolds Printable historyDepth remembered)
open RecentRing (recent)

/-! ### What the user sees -/

/-- What the shell does that can be seen. -/
inductive Action
  | call (call : Call)
  | echo (output : List Byte)
  deriving DecidableEq

/-- The shell goes on after it. -/
def Action.Returns : Action → Prop
  | .call made => made.Returns
  | .echo _ => True

instance (a : Action) : Decidable a.Returns :=
  match a with
  | .call made => inferInstanceAs (Decidable made.Returns)
  | .echo _ => isTrue trivial

/-- The prompt. -/
def prompt : Action := .call (puts "mini-os> ")

/-- The room for a line: the buffer of `shell_run`, less the terminator. -/
def lineRoom : ℕ := 79

/-- The editor before anything is typed. -/
def blankLine : Editor := ⟨[], [], 0, .normal⟩

/-- **What has come of the bytes typed so far**: the lines completed, oldest first, the line that is
being edited, and the actions. -/
structure Session where
  lines : List (List Byte)
  editor : Editor
  actions : List Action

namespace Session

/-- The lines the Up key recalls, the newest first. -/
def earlier (s : Session) : List (List Byte) := recent historyDepth (remembered s.lines)

/-- The shell has printed its first prompt. -/
def boot : Session := ⟨[], blankLine, [prompt]⟩

/-- What is called for a completed line, up to the next prompt. -/
def answer (line : List Byte) : List Action := (callsOf (tokenize line)).map .call ++ [prompt]

/-- A byte is typed. -/
def typeByte (s : Session) (c : Byte) : Session :=
  let (outcome, output) := s.editor.step s.earlier lineRoom c
  match outcome with
  | .more e => { s with editor := e, actions := s.actions ++ [.echo output] }
  | .enter e => ⟨s.lines ++ [e.text], blankLine, s.actions ++ .echo output :: answer e.text⟩

end Session

theorem Session.typeByte_more {w : Session} {c : Byte} {e : Editor} {output : List Byte}
    (h : w.editor.step w.earlier lineRoom c = (.more e, output)) :
    w.typeByte c = { w with editor := e, actions := w.actions ++ [.echo output] } := by
  rw [typeByte, h]

theorem Session.typeByte_enter {w : Session} {c : Byte} {e : Editor} {output : List Byte}
    (h : w.editor.step w.earlier lineRoom c = (.enter e, output)) : w.typeByte c =
      ⟨w.lines ++ [e.text], blankLine, w.actions ++ .echo output :: answer e.text⟩ := by
  rw [typeByte, h]

/-- **The session** in which these bytes are typed. -/
def session (input : List Byte) : Session := input.foldl Session.typeByte Session.boot

theorem session_concat (input : List Byte) (c : Byte) :
    session (input ++ [c]) = (session input).typeByte c := List.foldl_concat ..

/-! ### The loop with a log -/

/-- What has happened, the latest last. -/
structure RunLog where
  typed : List Byte
  actions : List Action

/-- The bytes `console_readline` sends for the byte it is given. -/
def echoOf (s : RunState) (c : Byte) : List Byte :=
  match s.console.status with
  | .reading l => ((Console.lineStep s.console.history c l).map Prod.snd).getD []
  | _ => []

/-- What a step adds to the log. -/
def RunLog.record (log : RunLog) (s : RunState) (e : RunOp × List Call) (_ : RunState) : RunLog :=
  match e with
  | (.byte c, _) => ⟨log.typed ++ [c], log.actions ++ [.echo (echoOf s c)]⟩
  | (_, calls) => ⟨log.typed, log.actions ++ calls.map .call⟩

/-- **The loop of the shell with its log.** -/
def loggedShell : Lts (RunState × RunLog) (RunOp × List Call) :=
  shellRun.withHistory ⟨[], []⟩ RunLog.record

/-- What the loop will do before it reads the next byte, as far as its calls come back. -/
def due : Status → List Action
  | .idle => [prompt]
  | .reading _ => []
  | .returned length buffer => Session.answer (buffer.take length)

/-! ### The loop and the session -/

variable {s t : RunState} {log : RunLog} {op : RunOp} {w : Session}

/-- The editor of the session is the one the loop has at work; else the next line is blank. -/
def Edits (w : Session) : Status → Prop
  | .idle => w.editor = blankLine
  | .reading l => Shows lineRoom l w.editor ∧ w.editor.Ok w.earlier lineRoom
  | .returned length buffer => w.editor = blankLine ∧
      buffer.length = Console.consoleLineCapacity ∧
      ∃ text, StringAt buffer 0 text ∧ length = text.length

/-- **The loop and the session agree.** -/
structure SessionInv (s : RunState) (log : RunLog) : Prop where
  command : s.command.length = Console.consoleLineCapacity
  arguments : s.arguments.length = shellMaxArguments + 1
  history : HistoryHolds s.console.history (remembered (session log.typed).lines)
  edits : Edits (session log.typed) s.console.status
  actions : log.actions ++ due s.console.status = (session log.typed).actions

theorem blankLine_ok (earlier : List (List Byte)) : blankLine.Ok earlier lineRoom := by
  refine ⟨?_, Nat.zero_le _, ?_, Nat.zero_le _, Nat.zero_le _⟩ <;> simp [blankLine, Printable]

/-- The loop begins a pass. -/
theorem sessionInv_prompt (h : SessionInv s log) {draft : List Byte}
    (hfits : (RunOp.prompt draft).Fits s) :
    ∃ t calls, runStep (.prompt draft) s = some (t, calls) ∧ calls = [puts "mini-os> "] ∧
      SessionInv t (log.record s (.prompt draft, calls) t) ∧ ∃ l, t.console.status = .reading l := by
  obtain ⟨hidle, hdraft⟩ := hfits
  obtain ⟨l, hl, hshows⟩ : ∃ l, Console.startLine s.command draft (lineRoom + 1) = some l ∧
      Shows lineRoom l blankLine := Console.startLine_eq h.command hdraft
  have hedits := h.edits
  rw [hidle] at hedits
  have hblank : (session log.typed).editor = blankLine := hedits
  have hstart : Console.step (.call Console.consoleLineCapacity s.command draft) s.console =
      some { s.console with status := .reading l } := by
    change Option.bind (Console.startLine s.command draft (lineRoom + 1)) _ = _
    rw [hl]
    rfl
  refine ⟨{ s with console := { s.console with status := .reading l } }, [puts "mini-os> "], ?_, rfl,
    ⟨h.command, h.arguments, h.history, ⟨?_, ?_⟩, ?_⟩, l, rfl⟩
  · simp only [runStep, hstart, Option.bind_eq_bind, Option.bind_some]
    rfl
  · change Shows lineRoom l (session log.typed).editor
    rw [hblank]
    exact hshows
  · change (session log.typed).editor.Ok _ lineRoom
    rw [hblank]
    exact blankLine_ok _
  · have hactions := h.actions
    rw [hidle] at hactions
    exact (List.append_nil _).trans hactions

/-- A byte is typed. -/
theorem sessionInv_byte (h : SessionInv s log) {c : Byte} (hfits : (RunOp.byte c).Fits s) :
    ∃ t, runStep (.byte c) s = some (t, []) ∧ SessionInv t (log.record s (.byte c, []) t) := by
  obtain ⟨l, hl⟩ := hfits
  have hedits := h.edits
  have hactions := h.actions
  rw [hl] at hedits hactions
  obtain ⟨hshows, hok⟩ := hedits
  have hactions : log.actions = (session log.typed).actions :=
    (List.append_nil _).symm.trans hactions
  -- the pass does what the editor does
  obtain ⟨o, ho, hrel⟩ := hshows.lineStep_eq h.history hok (by decide) c
  have hok' := hok.step h.history.printable_recent c
  have hecho : echoOf s c =
      ((session log.typed).editor.step (session log.typed).earlier lineRoom c).2 := by
    simp only [echoOf, hl, ho]
    rfl
  change Console.Outcome.Rel (Shows lineRoom) o
    ((session log.typed).editor.step (session log.typed).earlier lineRoom c).1 at hrel
  rcases hr : (session log.typed).editor.step (session log.typed).earlier lineRoom c with
    ⟨outcome, output⟩
  rw [hr] at hecho hrel
  cases hrel with
  | @more l' e hshows' =>
      have hsession := (session_concat log.typed c).trans (Session.typeByte_more hr)
      refine ⟨{ s with console := { s.console with status := .reading l' } }, ?_,
        ⟨h.command, h.arguments, ?_, ?_, ?_⟩⟩
      · simp only [runStep, Console.step, hl, ho, Option.bind_eq_bind, Option.bind_some]
        rfl
      · change HistoryHolds s.console.history (remembered (session (log.typed ++ [c])).lines)
        rw [hsession]
        exact h.history
      · change Edits (session (log.typed ++ [c])) (.reading l')
        rw [hsession]
        refine ⟨hshows', ?_⟩
        have he : ((session log.typed).editor.step (session log.typed).earlier lineRoom c).1.line =
            e := by rw [hr, Console.Outcome.line]
        rw [← he]
        exact hok'
      · change log.actions ++ [.echo (echoOf s c)] ++ [] = (session (log.typed ++ [c])).actions
        rw [hsession, List.append_nil, hactions, hecho]
  | @enter l' e hshows' =>
      have hsession := (session_concat log.typed c).trans (Session.typeByte_enter hr)
      have he : ((session log.typed).editor.step (session log.typed).earlier lineRoom c).1.line =
          e := by rw [hr, Console.Outcome.line]
      have hok'' : e.Ok (session log.typed).earlier lineRoom := he ▸ hok'
      obtain ⟨buffer, history, hfinish, hlen, hstring, hholds⟩ :=
        Console.finishLine_eq h.history hshows' hok''.text hok''.text_le (by decide)
      have htaken : buffer.take l'.length = e.text := by rw [hshows'.length, hstring.take_length]
      refine ⟨{ s with console := ⟨history, .returned l'.length buffer⟩ }, ?_,
        ⟨h.command, h.arguments, ?_, ?_, ?_⟩⟩
      · simp only [runStep, Console.step, hl, ho, hfinish, Option.bind_eq_bind, Option.bind_some]
        rfl
      · change HistoryHolds history (remembered (session (log.typed ++ [c])).lines)
        rw [hsession]
        exact hholds
      · change Edits (session (log.typed ++ [c])) (.returned l'.length buffer)
        rw [hsession]
        exact ⟨rfl, hlen, e.text, hstring, hshows'.length⟩
      · change log.actions ++ [.echo (echoOf s c)] ++ Session.answer (buffer.take l'.length) =
          (session (log.typed ++ [c])).actions
        rw [hsession, hactions, hecho, htaken, List.append_assoc]
        rfl

/-- The line is executed. -/
theorem sessionInv_execute (h : SessionInv s log) (hfits : RunOp.execute.Fits s) :
    ∃ t calls, runStep .execute s = some (t, calls) ∧
      due s.console.status = calls.map .call ++ [prompt] ∧
      SessionInv t (log.record s (.execute, calls) t) ∧ t.console.status = .idle := by
  obtain ⟨n, buffer, hreturned⟩ := hfits
  have hedits := h.edits
  have hactions := h.actions
  rw [hreturned] at hedits hactions
  obtain ⟨hblank, hlen, text, hstring, hn⟩ := hedits
  obtain ⟨t, hstep, hconsole, hcommand, harguments⟩ := execute_eq hreturned hstring h.arguments
  have htaken : buffer.take n = text := by rw [hn, hstring.take_length]
  refine ⟨t, _, hstep, ?_, ⟨hcommand.trans hlen, harguments, ?_, ?_, ?_⟩, ?_⟩
  · rw [hreturned, due, htaken, Session.answer]
  · rw [hconsole]
    exact h.history
  · rw [hconsole]
    exact hblank
  · rw [hconsole]
    rw [due, htaken, Session.answer, ← List.append_assoc] at hactions
    exact hactions
  · rw [hconsole]

/-- **What one step preserves**; and it does not fail. -/
theorem sessionInv_step (h : SessionInv s log) (hfits : op.Fits s) :
    ∃ t calls, runStep op s = some (t, calls) ∧ SessionInv t (log.record s (op, calls) t) := by
  cases op with
  | prompt draft =>
      obtain ⟨t, calls, hstep, -, hinv, -⟩ := sessionInv_prompt h hfits
      exact ⟨t, calls, hstep, hinv⟩
  | byte c =>
      obtain ⟨t, hstep, hinv⟩ := sessionInv_byte h hfits
      exact ⟨t, [], hstep, hinv⟩
  | execute =>
      obtain ⟨t, calls, hstep, -, hinv, -⟩ := sessionInv_execute h hfits
      exact ⟨t, calls, hstep, hinv⟩

theorem sessionInv_init (h : shellRun.init s) : SessionInv s ⟨[], []⟩ := by
  obtain ⟨hconsole, hcommand, harguments⟩ := h
  refine ⟨hcommand, harguments, ?_, ?_, ?_⟩
  · rw [hconsole]
    exact Console.historyHolds_boot
  · rw [hconsole]
    rfl
  · rw [hconsole]
    rfl

theorem reachable_sessionInv (h : loggedShell.Reachable (s, log)) : SessionInv s log := by
  refine Lts.Reachable.history_invariant (P := SessionInv) ?_ ?_ h
  · intro s hs
    exact sessionInv_init hs
  · rintro s log ⟨op, calls⟩ t - hinv ⟨hfits, hstep, -⟩
    obtain ⟨t', calls', hstep', hinv'⟩ := sessionInv_step hinv hfits
    obtain ⟨rfl, rfl⟩ := Prod.mk.inj (Option.some_inj.1 (hstep'.symm.trans hstep))
    exact hinv'

/-! ### The loop goes on -/

/-- What was typed and done stays. -/
theorem session_actions_prefix (input more : List Byte) :
    (session input).actions <+: (session (input ++ more)).actions := by
  induction more using List.reverseRecOn with
  | nil => rw [List.append_nil]
  | append_singleton more c ih =>
      rw [← List.append_assoc, session_concat]
      refine ih.trans ?_
      cases hr : (session (input ++ more)).editor.step (session (input ++ more)).earlier lineRoom c with
      | mk outcome output =>
          cases outcome with
          | more e =>
              rw [Session.typeByte_more hr]
              exact List.prefix_append _ _
          | enter e =>
              rw [Session.typeByte_enter hr]
              exact List.prefix_append _ _

/-- A loop that prompts gets to read a byte. -/
theorem reads_of_idle (h : SessionInv s log) (hidle : s.console.status = .idle) :
    ∃ events t log', loggedShell.Run (s, log) events (t, log') ∧ SessionInv t log' ∧
      log'.typed = log.typed ∧ ∃ l, t.console.status = .reading l := by
  have hfits : (RunOp.prompt (List.replicate Console.consoleLineCapacity 0)).Fits s :=
    ⟨hidle, List.length_replicate⟩
  obtain ⟨t, calls, hstep, rfl, hinv, hreading⟩ := sessionInv_prompt h hfits
  exact ⟨_, t, _, Lts.Run.cons (e := (_, [puts "mini-os> "])) ⟨⟨hfits, hstep, by decide⟩, rfl⟩
    Lts.Run.nil, hinv, rfl, hreading⟩

/-- Whatever the loop is at, it gets to read a byte, without one being typed, if what is called until
then comes back. -/
theorem reads (h : SessionInv s log)
    (hreturns : ∀ a ∈ due s.console.status, a.Returns) :
    ∃ events t log', loggedShell.Run (s, log) events (t, log') ∧ SessionInv t log' ∧
      log'.typed = log.typed ∧ ∃ l, t.console.status = .reading l := by
  cases hstatus : s.console.status with
  | idle => exact reads_of_idle h hstatus
  | reading l => exact ⟨[], s, log, Lts.Run.nil, h, rfl, l, hstatus⟩
  | returned n buffer =>
      have hfits : RunOp.execute.Fits s := ⟨n, buffer, hstatus⟩
      obtain ⟨t, calls, hstep, hdue, hinv, hidle⟩ := sessionInv_execute h hfits
      have hfault : .exceptionTriggerTest ∉ calls := by
        intro hmem
        have hcall : .call .exceptionTriggerTest ∈ due s.console.status := by
          rw [hdue]
          exact List.mem_append_left _ (List.mem_map_of_mem hmem)
        exact absurd (hreturns _ hcall) (by decide)
      obtain ⟨events, u, log', hrun, hinv', htyped, hreading⟩ := reads_of_idle hinv hidle
      exact ⟨_, u, log', Lts.Run.cons (e := (.execute, calls)) ⟨⟨hfits, hstep, hfault⟩, rfl⟩ hrun,
        hinv', htyped, hreading⟩

/-- Any bytes may be typed, as long as what is called comes back. -/
theorem accepts (h : SessionInv s log) (input : List Byte) {rest : List Action}
    (hrest : (session (log.typed ++ input)).actions = log.actions ++ rest)
    (hreturns : ∀ a ∈ rest, a.Returns) :
    ∃ events t log', loggedShell.Run (s, log) events (t, log') ∧ SessionInv t log' ∧
      log'.typed = log.typed ++ input ∧ ∃ l, t.console.status = .reading l := by
  induction input generalizing s log rest with
  | nil =>
      rw [List.append_nil, ← h.actions] at hrest
      rw [List.append_nil]
      exact reads h (List.append_cancel_left hrest ▸ hreturns)
  | cons c input ih =>
      -- what is due comes first, then the echo of the byte, then the rest
      obtain ⟨more, hmore⟩ := session_actions_prefix log.typed (c :: input)
      have hparts : rest = due s.console.status ++ more := by
        rw [← hmore, ← h.actions, List.append_assoc] at hrest
        exact (List.append_cancel_left hrest).symm
      obtain ⟨waiting, u, log', hrun, hinv, htyped, hfits⟩ := reads h fun a ha =>
        hreturns a (hparts ▸ List.mem_append_left _ ha)
      obtain ⟨t, hstep, hinv'⟩ := sessionInv_byte (c := c) hinv hfits
      have hsplit : log.typed ++ c :: input = (log'.typed ++ [c]) ++ input := by
        rw [htyped, List.append_assoc]
        rfl
      obtain ⟨rest', hrest'⟩ := session_actions_prefix (log'.typed ++ [c]) input
      have hdone : log'.actions = (session log'.typed).actions := by
        obtain ⟨l, hl⟩ := hfits
        have hactions := hinv.actions
        rw [hl] at hactions
        exact (List.append_nil _).symm.trans hactions
      have hless : ∀ a ∈ due t.console.status ++ rest', a ∈ rest := by
        have hsame := h.actions
        rw [← htyped, ← hdone] at hsame
        have hall : log'.actions ++ [.echo (echoOf u c)] ++ due t.console.status =
            (session (log'.typed ++ [c])).actions := hinv'.actions
        rw [hsplit, ← hrest', ← hall, ← hsame] at hrest
        have hcancel : rest = due s.console.status ++ ([.echo (echoOf u c)] ++
            (due t.console.status ++ rest')) := by
          simp only [List.append_assoc] at hrest
          exact (List.append_cancel_left hrest).symm
        intro a ha
        rw [hcancel]
        exact List.mem_append_right _ (List.mem_append_right _ ha)
      have hnext : (session ((log'.typed ++ [c]) ++ input)).actions =
          (log'.actions ++ [.echo (echoOf u c)]) ++ (due t.console.status ++ rest') := by
        rw [← hrest', ← List.append_assoc]
        exact congrArg (· ++ rest') hinv'.actions.symm
      obtain ⟨events, v, log'', hrun', hinv'', htyped', hreading⟩ :=
        ih hinv' hnext fun a ha => hreturns a (hless a ha)
      refine ⟨waiting ++ (RunOp.byte c, []) :: events, v, log'', ?_, hinv'', ?_, hreading⟩
      · refine hrun.append (Lts.Run.cons (e := (RunOp.byte c, [])) ?_ hrun')
        exact ⟨⟨hfits, hstep, List.not_mem_nil⟩, rfl⟩
      · rw [htyped', hsplit]
        rfl

/-- **The loop does what the session does, and goes on as long as its calls come back.**  In every run of
the shell, whatever its buffer, its draft and its array of arguments hold at the start and keep from line
to line, its actions so far are those of the session with the same bytes, but for what it does before it
reads the next one; so two runs that are typed the same do the same.  From every reachable state any
further bytes may be typed, and they are answered as in the session, if none of the calls that are still
to be made is one from which the system may not come back. -/
theorem session_refines (h : loggedShell.Reachable (s, log)) :
    log.actions ++ due s.console.status = (session log.typed).actions ∧
    ∀ input, ∃ rest, (session (log.typed ++ input)).actions = log.actions ++ rest ∧
      ((∀ a ∈ rest, a.Returns) →
        ∃ events t, loggedShell.Run (s, log) events
            (t, ⟨log.typed ++ input, (session (log.typed ++ input)).actions⟩) ∧
          ∃ l, t.console.status = .reading l) := by
  have hinv := reachable_sessionInv h
  refine ⟨hinv.actions, fun input => ?_⟩
  obtain ⟨more, hmore⟩ := session_actions_prefix log.typed input
  have hrest : (session (log.typed ++ input)).actions =
      log.actions ++ (due s.console.status ++ more) := by
    rw [← hmore, ← hinv.actions, List.append_assoc]
  refine ⟨_, hrest, fun hreturns => ?_⟩
  obtain ⟨events, t, ⟨typed, actions⟩, hrun, hinv', rfl, l, hreading⟩ :=
    accepts hinv input hrest hreturns
  have hactions := hinv'.actions
  rw [hreading] at hactions
  have hsame : actions = (session (log.typed ++ input)).actions :=
    (List.append_nil _).symm.trans hactions
  rw [hsame] at hrun
  exact ⟨events, t, hrun, l, hreading⟩

/-- The shell before anything is typed, with sevens in its buffer. -/
def bootShell : RunState := ⟨Console.State.boot, List.replicate 80 7, List.replicate 9 none⟩

/-- The line `hello` typed at the first prompt is answered, and the shell reads on. -/
theorem session_refines_hello : ∃ events t, loggedShell.Run (bootShell, ⟨[], []⟩) events
    (t, ⟨bytes "hello" ++ [Console.carriageReturn],
      (session (bytes "hello" ++ [Console.carriageReturn])).actions⟩) ∧
    .call (puts "Hello!\n") ∈ (session (bytes "hello" ++ [Console.carriageReturn])).actions := by
  have hboot : loggedShell.Reachable (bootShell, ⟨[], []⟩) :=
    Lts.Reachable.init ⟨⟨rfl, rfl, rfl⟩, rfl⟩
  obtain ⟨rest, hrest, hruns⟩ :=
    (session_refines hboot).2 (bytes "hello" ++ [Console.carriageReturn])
  have hall : ∀ a ∈ (session (bytes "hello" ++ [Console.carriageReturn])).actions, a.Returns := by
    decide
  have hreturns : ∀ a ∈ rest, a.Returns := fun a ha => hall a (hrest ▸ ha)
  obtain ⟨events, t, hrun, -⟩ := hruns hreturns
  exact ⟨events, t, hrun, by decide⟩

end Shell

end MiniOs
