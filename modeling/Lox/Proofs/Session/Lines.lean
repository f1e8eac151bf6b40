import Mathlib.Data.List.Induction
import Lox.Proofs.Session.Grouping

/-! A console neither loses lines nor takes them twice nor moves them: what it does with lines is
what its session does with the parts that they fall into, each asked for once and in order. It may
keep the lines it gathers as a text that is empty while there are none, since nothing is open in an
empty text. -/

namespace Lox

/-- Takes steps until there are no more or the state is closed. -/
def untilClosed {σ α : Type} (closed : σ → Bool) (step : σ → α → Option (Transcript × σ)) (s : σ) :
    List α → Option (Transcript × σ)
  | [] => some ([], s)
  | a :: as =>
    (step s a).bind fun (written, s') =>
      if closed s' then some (written, s')
      else (untilClosed closed step s' as).map fun (more, s'') => (written ++ more, s'')

section Steps

variable {σ α : Type} {closed : σ → Bool} {step : σ → α → Option (Transcript × σ)} {s s' : σ}
  {a : α} {as : List α} {written : Transcript}

theorem untilClosed_singleton : untilClosed closed step s [a] = step s a := by
  unfold untilClosed
  cases step s a with
  | none => rfl
  | some next => simp [untilClosed]

theorem untilClosed_append (h : closed s = false) (bs : List α) :
    untilClosed closed step s (as ++ bs) =
      (untilClosed closed step s as).bind fun (written, s') =>
        if closed s' then some (written, s')
        else (untilClosed closed step s' bs).map fun (more, s'') => (written ++ more, s'') := by
  induction as generalizing s with
  | nil => simp [untilClosed, h]
  | cons a as ih =>
    rw [List.cons_append, untilClosed, untilClosed]
    cases step s a with
    | none => rfl
    | some next =>
      obtain ⟨written, s'⟩ := next
      cases hclosed : closed s' with
      | true => simp [hclosed]
      | false =>
        simp only [Option.bind_some, hclosed, Bool.false_eq_true, if_false, ih hclosed]
        cases untilClosed closed step s' as with
        | none => rfl
        | some last =>
          obtain ⟨more, t⟩ := last
          cases ht : closed t <;> simp [ht, Function.comp_def]

private theorem untilClosed_keeps {P : σ → Prop}
    (hstep : ∀ {s s' a written}, P s → step s a = some (written, s') → P s') (h : P s)
    (hend : untilClosed closed step s as = some (written, s')) : P s' := by
  induction as generalizing s written with
  | nil =>
    cases hend
    exact h
  | cons a as ih =>
    rw [untilClosed] at hend
    obtain ⟨⟨first, next⟩, hnext, hend⟩ := Option.bind_eq_some_iff.mp hend
    have hkept := hstep h hnext
    dsimp only at hend
    split_ifs at hend
    · cases hend
      exact hkept
    · obtain ⟨⟨more, last⟩, hlast, heq⟩ := Option.map_eq_some_iff.mp hend
      cases heq
      exact ih hkept hlast

end Steps

namespace Console

open Text Delimiters

/-- A console that has gathered no lines. -/
def idle (s : Session) : Console := ⟨s, none, false⟩

/-- Takes lines until they end or the console is closed, and gives the console then. -/
def feedLines (c : Console) (host : Host) (work : Nat) :
    List Text → Option (Transcript × Console) :=
  untilClosed Console.closed (fun c line => c.feed host work line) c

inductive Call where
  | run (input : Text)
  | handle (command : Text)

def Call.answer (s : Session) (host : Host) (work : Nat) : Call → Option (Transcript × Console)
  | .run input => (s.run host work input).map fun a => (a.transcript, idle a.session)
  | .handle command =>
    let (transcript, session, closes) := s.handle command
    some (transcript ++ (if closes then farewell else []), ⟨session, none, closes⟩)

/-- A part asks for one call, unless it is an input of blanks. -/
def Part.call? : Part → Option Call
  | .command line => some (.handle (trim line))
  | .input lines => if trim (joined lines) = [] then none else some (.run (trim (joined lines)))

/-- The session is asked once, or not at all. -/
def Part.ask (s : Session) (host : Host) (work : Nat) (p : Part) : Option (Transcript × Console) :=
  match p.call? with
  | none => some ([], idle s)
  | some call => call.answer s host work

/-- What a part asks for, with a prompt for each of its lines. -/
def Part.answer (s : Session) (host : Host) (work : Nat) (p : Part) :
    Option (Transcript × Console) :=
  (p.ask s host work).map fun (transcript, c) =>
    (List.replicate (p.lines.length - 1) morePrompt ++ transcript ++ [mainPrompt], c)

/-- The parts are answered in order, up to one that closes the console. -/
def answerAll (s : Session) (host : Host) (work : Nat) :
    List Part → Option (Transcript × Console) :=
  untilClosed Console.closed (fun c p => p.answer c.session host work) (idle s)

def gathered (lines : List Text) : Option Text := if lines = [] then none else some (joined lines)

/-- After the parts, a console that is not closed gathers the lines that are left. -/
def gather (rest : List Text) (answered : Transcript × Console) : Transcript × Console :=
  if answered.2.closed then answered
  else (answered.1 ++ List.replicate rest.length morePrompt,
    { answered.2 with pending := gathered rest })

variable {s : Session} {host : Host} {work : Nat} {c c' : Console} {lines : List Text} {line : Text}
  {transcript : Transcript}

section Feeding

private theorem feedAll_eq (h : c.closed = false) :
    c.feedAll host work lines =
      (c.feedLines host work lines).map fun (transcript, c') =>
        if c'.closed then transcript else transcript ++ farewell := by
  unfold feedLines
  induction lines generalizing c with
  | nil => simp [feedAll, untilClosed, h]
  | cons line lines ih =>
    rw [feedAll, untilClosed]
    cases c.feed host work line with
    | none => rfl
    | some next =>
      obtain ⟨transcript, c'⟩ := next
      cases hclosed : c'.closed with
      | true => simp [hclosed]
      | false =>
        simp only [Option.bind_some, hclosed, Bool.false_eq_true, if_false, ih hclosed]
        cases untilClosed Console.closed (fun c line => c.feed host work line) c' lines with
        | none => rfl
        | some last => cases hlast : last.2.closed <;> simp [hlast]

private theorem Part.pending_of_answer {p : Part}
    (h : p.answer s host work = some (transcript, c)) : c.pending = none := by
  unfold Part.answer Part.ask at h
  obtain ⟨⟨t, c'⟩, hanswer, heq⟩ := Option.map_eq_some_iff.mp h
  cases heq
  revert hanswer
  cases p.call? with
  | none => rintro ⟨⟩; rfl
  | some call =>
    cases call with
    | run input =>
      intro hanswer
      obtain ⟨answer, -, heq⟩ := Option.map_eq_some_iff.mp hanswer
      cases heq
      rfl
    | handle command => rintro ⟨⟩; rfl

variable (s host work)

theorem feed_gathered (hline : lines = [] → isCommandLine line = false) :
    feed ⟨s, gathered lines, false⟩ host work line
      = feedText ⟨s, gathered lines, false⟩ host work (joined (lines ++ [line])) := by
  unfold feed gathered
  by_cases hnil : lines = []
  · rw [if_pos hnil, hnil]
    simp only [isCommand_trim, hline hnil, Bool.false_eq_true, if_false]
    rfl
  · rw [if_neg hnil, joined_concat hnil]

theorem feedLines_unfinished (h : Unfinished lines) :
    (idle s).feedLines host work lines
      = some (List.replicate lines.length morePrompt, ⟨s, gathered lines, false⟩) := by
  induction lines using List.reverseRecOn with
  | nil => rfl
  | append_singleton lines line ih =>
    obtain ⟨hbefore, hline⟩ := h.of_concat
    have hopen : unclosed (joined (lines ++ [line])) = true :=
      h.opened _ (List.prefix_refl _) (List.concat_ne_nil line lines)
    have hfeed := feed_gathered s host work hline
    unfold feedText at hfeed
    rw [if_pos hopen] at hfeed
    unfold feedLines at ih ⊢
    rw [untilClosed_append rfl, ih hbefore, Option.bind_some]
    simp only [Bool.false_eq_true, if_false, untilClosed_singleton, hfeed, Option.map_some]
    rw [gathered, if_neg (List.concat_ne_nil line lines), List.length_append, List.length_singleton,
      List.replicate_succ']

/-- The last line of an input has all of its lines run, unless they are blank. -/
theorem feed_last (hclosed : unclosed (joined (lines ++ [line])) = false)
    (hline : lines = [] → isCommandLine line = false) :
    feed ⟨s, gathered lines, false⟩ host work line =
      ((Part.input (lines ++ [line])).ask s host work).map fun (transcript, c) =>
        (transcript ++ [mainPrompt], c) := by
  rw [feed_gathered s host work hline]
  unfold feedText Part.ask
  rw [if_neg (by simp [hclosed])]
  cases htrim : trim (joined (lines ++ [line])) with
  | nil =>
    have hcall : (Part.input (lines ++ [line])).call? = none := if_pos htrim
    rw [hcall]
    rfl
  | cons u input =>
    have hcall : (Part.input (lines ++ [line])).call? = some (.run (u :: input)) := by
      simp [Part.call?, htrim]
    rw [hcall]
    simp [Call.answer, idle, Function.comp_def]

private theorem feedLines_part {p : Part} (h : p.Sound) :
    (idle s).feedLines host work p.lines = p.answer s host work := by
  cases p with
  | command line =>
    have hcommand : isCommand (trim line) = true := (isCommand_trim line).trans h
    unfold feedLines
    rw [Part.lines, untilClosed_singleton]
    simp [feed, idle, hcommand, Part.answer, Part.ask, Part.call?, Call.answer, Part.lines]
    rfl
  | input lines =>
    obtain ⟨first, last, rfl⟩ : ∃ first last, lines = first ++ [last] :=
      ⟨_, _, (List.dropLast_concat_getLast (Complete.ne_nil h)).symm⟩
    obtain ⟨hbefore, hline⟩ := Complete.unfinished h
    have hgather := feedLines_unfinished s host work hbefore
    have hlast := feed_last s host work (Complete.closed h) hline
    unfold feedLines at hgather ⊢
    rw [Part.lines, untilClosed_append rfl, hgather, Option.bind_some]
    simp only [Bool.false_eq_true, if_false, untilClosed_singleton, hlast]
    simp [Part.answer, Part.lines, Function.comp_def]

/-- What is left after the parts is fed to the console that they leave, unless that is closed. -/
theorem feedLines_parts {parts : List Part} (h : ∀ p ∈ parts, p.Sound) (rest : List Text) :
    (idle s).feedLines host work (parts.flatMap Part.lines ++ rest) =
      (answerAll s host work parts).bind fun (transcript, c) =>
        if c.closed then some (transcript, c)
        else ((idle c.session).feedLines host work rest).map fun (more, c') =>
          (transcript ++ more, c') := by
  induction parts generalizing s with
  | nil => simp [answerAll, untilClosed, idle]
  | cons p parts ih =>
    obtain ⟨hp, hparts⟩ := List.forall_mem_cons.mp h
    have hpart := feedLines_part s host work hp
    unfold feedLines answerAll at *
    rw [List.flatMap_cons, List.append_assoc, untilClosed_append rfl, hpart, untilClosed,
      show (idle s).session = s from rfl]
    cases hanswer : p.answer s host work with
    | none => rfl
    | some next =>
      obtain ⟨transcript, c⟩ := next
      have hidle := Part.pending_of_answer hanswer
      obtain ⟨session, pending, closed⟩ := c
      obtain rfl : pending = none := hidle
      cases closed with
      | true => simp
      | false =>
        have hrest := ih session hparts
        unfold idle at hrest ⊢
        simp only [Option.bind_some, Bool.false_eq_true, if_false, hrest]
        cases untilClosed Console.closed (fun c p => p.answer c.session host work)
            ⟨session, none, false⟩ parts with
        | none => rfl
        | some last =>
          obtain ⟨more, c⟩ := last
          cases hclosed : c.closed <;> simp [hclosed, Function.comp_def]

/-- The lines ask for what their parts ask for, and what is left after these is gathered. -/
theorem feedLines_divided {parts : List Part} {rest : List Text} (h : Divides lines parts rest) :
    (idle s).feedLines host work lines = (answerAll s host work parts).map (gather rest) := by
  rw [h.lines_eq, feedLines_parts s host work h.sound]
  cases hanswer : answerAll s host work parts with
  | none => rfl
  | some answered =>
    obtain ⟨transcript, c⟩ := answered
    unfold gather
    cases hclosed : c.closed with
    | true => simp [hclosed]
    | false =>
      simp [hclosed, feedLines_unfinished _ host work h.unfinished]

end Feeding

section Prompts

private theorem mainPrompt_mem_of_feedText {text : Text}
    (h : c.feedText host work text = some (transcript, c')) :
    mainPrompt ∈ transcript ↔ c'.pending = none := by
  have hmore : mainPrompt ∉ [morePrompt] := by decide
  unfold feedText at h
  split_ifs at h
  · cases h
    simp [hmore]
  · dsimp only at h
    split at h
    · cases h
      simp
    · obtain ⟨answer, -, heq⟩ := Option.map_eq_some_iff.mp h
      cases heq
      simp

/-- The main prompt is shown when no lines are gathered, and only then. -/
theorem mainPrompt_mem_iff (h : c.feed host work line = some (transcript, c')) :
    mainPrompt ∈ transcript ↔ c'.pending = none := by
  unfold feed at h
  cases hpending : c.pending with
  | some text =>
    rw [hpending] at h
    exact mainPrompt_mem_of_feedText h
  | none =>
    rw [hpending] at h
    dsimp only at h
    by_cases hcommand : isCommand (trim line)
    · rw [if_pos hcommand] at h
      cases h
      simp
    · rw [if_neg hcommand] at h
      exact mainPrompt_mem_of_feedText h

end Prompts

section Buffers

/-- A console that has a text and a flag for the lines that it gathers: the text is not empty, and
the flag is up, while there are any. -/
structure Buffered where
  session : Session
  buffer : Text
  multiLine : Bool
  closed : Bool

namespace Buffered

def take (b : Buffered) (host : Host) (work : Nat) (text : Text) : Option (Transcript × Buffered) :=
  if unclosed text then some ([morePrompt], { b with buffer := text, multiLine := true })
  else
    let b := { b with buffer := [], multiLine := false }
    if trim text = [] then some ([mainPrompt], b)
    else
      (b.session.run host work (trim text)).map fun answer =>
        (answer.transcript ++ [mainPrompt], { b with session := answer.session })

/-- Takes one line. A newline goes in front of it unless the buffer is empty. -/
def feed (b : Buffered) (host : Host) (work : Nat) (line : Text) :
    Option (Transcript × Buffered) :=
  let command := trim line
  if ! b.multiLine && isCommand command then
    let (transcript, session, closes) := b.session.handle command
    some (transcript ++ (if closes then farewell else []) ++ [mainPrompt],
      { b with session := session, closed := closes })
  else b.take host work (b.buffer ++ (if b.buffer = [] then [] else [newline]) ++ line)

def feedLines (b : Buffered) (host : Host) (work : Nat) :
    List Text → Option (Transcript × Buffered) :=
  untilClosed Buffered.closed (fun b line => b.feed host work line) b

def idle (s : Session) : Buffered := ⟨s, [], false, false⟩

def console (b : Buffered) : Console :=
  ⟨b.session, if b.multiLine then some b.buffer else none, b.closed⟩

/-- The buffer is empty just if the flag is down. -/
def Sound (b : Buffered) : Prop := b.multiLine = true ↔ b.buffer ≠ []

variable {b b' : Buffered}

private theorem sound_idle : (idle s).Sound := by simp [Sound, idle]

/-- Nothing is open in an empty text, so a text that waits for more is not empty. -/
theorem ne_nil_of_unclosed {text : Text} (h : unclosed text = true) : text ≠ [] := by
  rintro rfl
  cases h

private theorem sound_of_take {text : Text} (h : b.take host work text = some (transcript, b')) :
    b'.Sound := by
  unfold take at h
  split_ifs at h with hopen hblank
  · cases h
    simp [Sound, ne_nil_of_unclosed hopen]
  · cases h
    simp [Sound]
  · obtain ⟨answer, -, heq⟩ := Option.map_eq_some_iff.mp h
    cases heq
    simp [Sound]

theorem Sound.feed (h : b.Sound) (hfeed : b.feed host work line = some (transcript, b')) :
    b'.Sound := by
  unfold Buffered.feed at hfeed
  dsimp only at hfeed
  by_cases hcommand : (! b.multiLine && isCommand (trim line)) = true
  · rw [if_pos hcommand] at hfeed
    cases hfeed
    exact h
  · rw [if_neg hcommand] at hfeed
    exact sound_of_take hfeed

private theorem console_take (text : Text) :
    (b.take host work text).map (fun (transcript, b') => (transcript, b'.console))
      = b.console.feedText host work text := by
  unfold take feedText
  cases unclosed text with
  | true => rfl
  | false =>
    cases trim text with
    | nil => simp [console]
    | cons u input => simp [console, Function.comp_def]

/-- The buffer holds the lines that are gathered, and the newline is put where it belongs. -/
theorem Sound.console_feed (h : b.Sound) :
    (b.feed host work line).map (fun (transcript, b') => (transcript, b'.console))
      = b.console.feed host work line := by
  obtain ⟨session, buffer, multiLine, closed⟩ := b
  unfold Buffered.feed Console.feed
  cases multiLine with
  | true =>
    have hbuffer : buffer ≠ [] := h.mp rfl
    simp only [Bool.not_true, Bool.false_and, Bool.false_eq_true, if_false, console_take,
      if_neg hbuffer]
    rfl
  | false =>
    obtain rfl : buffer = [] := by simpa [Sound] using h
    by_cases hcommand : isCommand (trim line)
    · simp [hcommand, console]
    · simp only [hcommand, Bool.not_false, Bool.true_and, Bool.false_eq_true, if_false,
        console_take, if_true, List.append_nil, List.nil_append]
      rfl

/-- With its text and flag, a console goes through the same steps. -/
theorem Sound.console_feedLines (h : b.Sound) :
    (b.feedLines host work lines).map (fun (transcript, b') => (transcript, b'.console))
      = b.console.feedLines host work lines := by
  unfold Buffered.feedLines Console.feedLines
  induction lines generalizing b with
  | nil => rfl
  | cons line lines ih =>
    rw [untilClosed, untilClosed, ← h.console_feed]
    cases hfeed : b.feed host work line with
    | none => rfl
    | some next =>
      obtain ⟨transcript, b'⟩ := next
      have hsound := h.feed hfeed
      cases hclosed : b'.closed with
      | true => simp [hclosed, console]
      | false =>
        have hconsole : b'.console.closed = false := hclosed
        simp only [Option.bind_some, Option.map_some, hclosed, hconsole, Bool.false_eq_true,
          if_false, ← ih hsound]
        cases untilClosed Buffered.closed (fun b line => b.feed host work line) b' lines <;> rfl

private theorem Sound.feedLines (h : b.Sound)
    (hfeed : b.feedLines host work lines = some (transcript, b')) :
    b'.Sound :=
  untilClosed_keeps (fun hs hstep => Sound.feed hs hstep) h hfeed

private theorem Sound.mainPrompt_mem_iff (h : b.Sound)
    (hfeed : b.feed host work line = some (transcript, b')) :
    mainPrompt ∈ transcript ↔ b'.buffer = [] := by
  have hconsole : b.console.feed host work line = some (transcript, b'.console) := by
    rw [← h.console_feed, hfeed]
    rfl
  have hflag : b'.multiLine = true ↔ b'.buffer ≠ [] := h.feed hfeed
  rw [Console.mainPrompt_mem_iff hconsole]
  unfold console
  cases hmulti : b'.multiLine with
  | true => simp [hflag.mp hmulti]
  | false =>
    have hempty : b'.buffer = [] := by simpa [hmulti] using hflag
    simp [hempty]

end Buffered

end Buffers

/-- No line is lost, taken twice or moved. Lines fall into command lines, shortest inputs that leave
nothing open, and unfinished lines at the end, in just one way. A console asks its session for what
these parts ask, once each and in order, up to a command that closes it; the unfinished lines it
keeps, and drops at the end of all lines. The main prompt is shown just when it keeps none. A
console with a text and a flag does the same, with the flag up just while the text is not empty. -/
theorem lines_kept (s : Session) (host : Host) (work : Nat) (lines : List Text) :
    (∃! division : List Part × List Text, Divides lines division.1 division.2) ∧
    (∀ parts rest, Divides lines parts rest →
      (idle s).feedLines host work lines = (answerAll s host work parts).map (gather rest) ∧
      (idle s).feedAll host work lines = ((answerAll s host work parts).map (gather rest)).map
        fun (transcript, c) => if c.closed then transcript else transcript ++ farewell) ∧
    (∀ (c c' : Console) line transcript, c.feed host work line = some (transcript, c') →
      (mainPrompt ∈ transcript ↔ c'.pending = none)) ∧
    ((Buffered.idle s).feedLines host work lines).map
        (fun (transcript, b) => (transcript, b.console))
      = (idle s).feedLines host work lines ∧
    (∀ b transcript, (Buffered.idle s).feedLines host work lines = some (transcript, b) →
      (b.multiLine = true ↔ b.buffer ≠ []) ∧
      ∀ b' line more, b.feed host work line = some (more, b') →
        (mainPrompt ∈ more ↔ b'.buffer = [])) := by
  refine ⟨?_, ?_, ?_, ?_, ?_⟩
  · obtain ⟨parts, rest, hdivides⟩ := exists_divides lines [] unfinished_nil
    rw [List.nil_append] at hdivides
    apply ExistsUnique.intro (parts, rest) hdivides
    intro division hdivision
    obtain ⟨hparts, hrest⟩ := hdivision.unique hdivides
    exact Prod.ext hparts hrest
  · intro parts rest h
    have hlines := feedLines_divided s host work h
    constructor
    · exact hlines
    · rw [feedAll_eq rfl, hlines]
  · intro c c' line transcript h
    exact mainPrompt_mem_iff h
  · exact Buffered.sound_idle.console_feedLines
  · intro b transcript h
    have hsound := Buffered.sound_idle.feedLines h
    constructor
    · exact hsound
    · intro b' line more hfeed
      exact hsound.mainPrompt_mem_iff hfeed

/-- A colon that starts a line of an open string starts no command. -/
theorem lines_kept_string :
    let lines : List Text := ["print \"", ":q\";", " :q", "("]
    let parts : List Part := [.input ["print \"", ":q\";"], .command " :q"]
    parts.map Part.call? = [some (.run "print \"\n:q\";"), some (.handle ":q")] ∧
      Divides lines parts ["("] ∧
      (idle (.new true)).feedLines (.standard (.stopped 0)) 1 lines =
        (answerAll (.new true) (.standard (.stopped 0)) 1 parts).map (gather ["("]) := by
  intro lines parts
  have hstring : Unfinished ["print \""] := unfinished_nil.concat (by decide) (by decide)
  have hdivides : Divides lines parts ["("] := by
    have hsound : (Part.input ["print \"", ":q\";"]).Sound := hstring.complete nofun (by decide)
    have hcommand : isCommandLine " :q" = true := by decide
    constructor
    · rfl
    · exact List.forall_mem_cons.mpr ⟨hsound, List.forall_mem_singleton.mpr hcommand⟩
    · exact unfinished_nil.concat (by decide) (by decide)
  exact ⟨rfl, hdivides, ((lines_kept _ _ _ lines).2.1 parts ["("] hdivides).1⟩

end Console

end Lox
