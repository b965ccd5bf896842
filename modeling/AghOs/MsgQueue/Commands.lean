import AghOs.MsgQueue.Dispatch

/-!
# The commands of the client

The body of the loop in `main` of `client.c` (lines 207–243) on the bytes of `buf`, up
to the message that it sends. `msg` is not initialised.

* `turn_eq`: what the code makes of a line.
* `commands_iff`: which of the lines that `print_help` describes are recognised.
* `turn_command`: where it sends, it decides what `command` of `Client` says.
* `mirror_iff`: a text comes back reversed if and only if it is shorter than
  `MSG_BUF_SIZE`.
-/

namespace AghOs.MsgQueue.Dispatch

/-- The commands in `print_help`. -/
inductive Command
  | mirror | calc | time | «end»
  deriving DecidableEq

namespace Command

def name : Command → List UInt8
  | .mirror => [109, 105, 114, 114, 111, 114]
  | .calc => [99, 97, 108, 99]
  | .time => [116, 105, 109, 101]
  | .end => [101, 110, 100]

/-- The number of the message of a command. -/
def type : Command → ℤ
  | .mirror => 2
  | .calc => 3
  | .time => 4
  | .end => 5

end Command

/-- The comparisons with `strcmp`. -/
def recognise (command : List UInt8) : Option Command :=
  if command = Command.mirror.name then some .mirror
  else if command = Command.calc.name then some .calc
  else if command = Command.time.name then some .time
  else if command = Command.end.name then some .end
  else none

/-- How an iteration goes on: with the next line, with the response to a message sent,
    or in `exit` after `END`. -/
inductive Turn
  | rejected
  | request (msg : MsgT)
  | ending (msg : MsgT)

/-- The message that is sent. -/
def Turn.sent : Turn → Option MsgT
  | rejected => none
  | request msg => some msg
  | ending msg => some msg

/-- `buf` of `main` is of this size. -/
def lineSize : ℕ := 1024

/-- The line with NULs behind the command and the text, and where `text` points. -/
def split (buf : Chars lineSize) : Option (Chars lineSize × ℕ) := do
  let i := buf.scan (fun c => c ≠ 32 ∧ c ≠ 0) 0
  let c ← buf.bytes[i]?
  if c ≠ 0 then do
    let buf ← buf.store i 0
    let buf ← terminateNl buf (i + 1)
    some (buf, i + 1)
  else do
    let buf ← terminateNl buf i
    some (buf, i)

/-- The body of the loop, for the line in `buf`. -/
def turn (clientId self : ℤ) (msg : MsgT) (buf : Chars lineSize) : Option Turn := do
  let msg := { msg with clientId := clientId, sender := self }
  let (buf, i) ← split buf
  let command ← buf.string 0
  match recognise command with
  | none => some .rejected
  | some .end => some (.ending { msg with type := Command.end.type })
  | some c => do
    let text ← buf.string i
    let text ← msg.buf.strcpy text
    some (.request { msg with type := c.type, buf := text })

/-! ## A line -/

section

variable {buf : Chars lineSize} {line w rest z : List UInt8} {clientId self : ℤ} {msg : MsgT}
  {c : Command}

theorem terminateNl_string {n : ℕ} {b : Chars n} {pre s : List UInt8}
    (h : b.bytes = pre ++ (s ++ 0 :: z)) :
    ∃ b' z', terminateNl b pre.length = some b' ∧
      b'.bytes = pre ++ (terminateAtNl s ++ 0 :: z') :=
  Chars.terminateAt_string h (by simp)

theorem notMem_terminateAtNl (s : List UInt8) : 0 ∉ terminateAtNl s := fun h => by
  simpa using List.mem_takeWhile_imp h

theorem splitCommand_space (hw : 32 ∉ w) (h0 : 0 ∉ w ++ 32 :: rest) :
    splitCommand (w ++ 32 :: rest) = (w, terminateAtNl rest) := by
  have hall : ∀ c ∈ w ++ 32 :: rest, decide (c ≠ 0) = true := fun c hc =>
    decide_eq_true (ne_of_mem_of_not_mem hc h0)
  have hword : ∀ c ∈ w, decide (c ≠ 32) = true := fun c hc =>
    decide_eq_true (ne_of_mem_of_not_mem hc hw)
  unfold splitCommand
  rw [List.takeWhile_eq_self_iff.mpr hall]
  dsimp only
  rw [List.takeWhile_append_of_pos hword, List.dropWhile_append_of_pos hword]
  simp

theorem splitCommand_word (hw : 32 ∉ w) (h0 : 0 ∉ w) : splitCommand w = (w, []) := by
  have hall : ∀ c ∈ w, decide (c ≠ 0) = true := fun c hc =>
    decide_eq_true (ne_of_mem_of_not_mem hc h0)
  have hword : ∀ c ∈ w, decide (c ≠ 32) = true := fun c hc =>
    decide_eq_true (ne_of_mem_of_not_mem hc hw)
  unfold splitCommand
  rw [List.takeWhile_eq_self_iff.mpr hall]
  dsimp only
  rw [List.takeWhile_eq_self_iff.mpr hword, List.dropWhile_eq_nil_iff.mpr hword]
  rfl

/-- The two scans split the line as `splitCommand` says. -/
theorem split_spec (h : buf.string 0 = some line) :
    ∃ buf' i, split buf = some (buf', i) ∧ buf'.string 0 = some (splitCommand line).1 ∧
      buf'.string i = some (splitCommand line).2 := by
  obtain ⟨h0, z, hz⟩ := Chars.string_eq_some_iff.mp h
  rw [List.drop_zero] at hz
  have hnotSpace : ∀ {w : List UInt8}, 32 ∉ w → 0 ∉ w →
      ∀ c ∈ w, (decide (c ≠ 32 ∧ c ≠ 0)) = true := fun hw h0 c hc =>
    decide_eq_true ⟨ne_of_mem_of_not_mem hc hw, ne_of_mem_of_not_mem hc h0⟩
  unfold split
  by_cases hspace : 32 ∈ line
  · -- both scans
    obtain ⟨w, rest, rfl, hw⟩ := List.eq_append_cons_of_mem hspace
    have hw0 : 0 ∉ w := fun hmem => h0 (List.mem_append_left _ hmem)
    rw [List.append_assoc, List.cons_append] at hz
    have hscan := Chars.scan_zero hz (hnotSpace hw hw0) rfl
    have hget : buf.bytes[w.length]? = some 32 := by simp [hz]
    obtain ⟨b₁, hb₁, hbytes₁⟩ := Chars.store_append hz 0
    rw [List.append_cons] at hbytes₁
    obtain ⟨b₂, z', hb₂, hbytes₂⟩ := terminateNl_string hbytes₁
    rw [List.length_append, List.length_singleton] at hb₂
    rw [splitCommand_space hw h0]
    refine ⟨b₂, w.length + 1, ?_, ?_, ?_⟩
    · simp only [hscan, hget, Option.bind_eq_bind, Option.bind_some, hb₁, hb₂]
      rfl
    · rw [List.append_assoc] at hbytes₂
      exact Chars.string_zero hbytes₂ hw0
    · have hstring := Chars.string_append hbytes₂ (notMem_terminateAtNl rest)
      rwa [List.length_append, List.length_singleton] at hstring
  · -- `text` is at the NUL
    have hscan := Chars.scan_zero hz (hnotSpace hspace h0) rfl
    have hget : buf.bytes[line.length]? = some 0 := by simp [hz]
    have hz' : buf.bytes = line ++ ([] ++ 0 :: z) := hz
    obtain ⟨b', z', hb', hbytes'⟩ := terminateNl_string hz'
    rw [splitCommand_word hspace h0]
    refine ⟨b', line.length, ?_, Chars.string_zero hbytes' h0,
      Chars.string_append hbytes' List.not_mem_nil⟩
    simp only [hscan, hget, Option.bind_eq_bind, Option.bind_some, hb']
    rfl

/-- What the code makes of a line. -/
theorem turn_eq (h : buf.string 0 = some line) :
    turn clientId self msg buf =
      match recognise (splitCommand line).1 with
      | none => some .rejected
      | some .end =>
        some (.ending { msg with clientId := clientId, sender := self, type := Command.end.type })
      | some c => (msg.buf.strcpy (splitCommand line).2).map fun text =>
          .request ⟨c.type, clientId, self, text⟩ := by
  obtain ⟨buf', i, hsplit, hcommand, htext⟩ := split_spec h
  unfold turn
  simp only [hsplit, hcommand, htext, Option.bind_eq_bind, Option.bind_some]
  cases recognise (splitCommand line).1 with
  | none => rfl
  | some c => cases c <;> simp only [Option.map_eq_bind, Function.comp_def]

/-! ## The commands documented -/

/-- The line of a command, with a text behind a space or without one. -/
def commandLine (c : Command) (text : Option (List UInt8)) (newline : Bool) : List UInt8 :=
  c.name ++ (text.elim [] (32 :: ·) ++ if newline then [10] else [])

theorem recognise_eq_some_iff {command : List UInt8} :
    recognise command = some c ↔ command = c.name := by
  constructor
  · intro h
    unfold recognise at h
    split_ifs at h <;> cases h <;> assumption
  · rintro rfl
    cases c <;> rfl

theorem name_plain (c : Command) : 32 ∉ c.name ∧ 10 ∉ c.name ∧ 0 ∉ c.name := by
  cases c <;> decide

theorem terminateAtNl_line {t : List UInt8} (h10 : 10 ∉ t) (h0 : 0 ∉ t) (newline : Bool) :
    terminateAtNl (t ++ if newline then [10] else []) = t := by
  have hall : ∀ c ∈ t, decide (c ≠ 10 ∧ c ≠ 0) = true := fun c hc =>
    decide_eq_true ⟨ne_of_mem_of_not_mem hc h10, ne_of_mem_of_not_mem hc h0⟩
  unfold terminateAtNl
  rw [List.takeWhile_append_of_pos hall]
  cases newline <;> simp

/-- With a text, the line is split where it should be. -/
theorem splitCommand_text {t : List UInt8} (h10 : 10 ∉ t) (h0 : 0 ∉ t) (newline : Bool) :
    splitCommand (commandLine c (some t) newline) = (c.name, t) := by
  obtain ⟨hw, -, hw0⟩ := name_plain c
  have hmem : 0 ∉ c.name ++ 32 :: (t ++ if newline then [10] else []) := by
    cases newline <;> simp [hw0, h0]
  have hsplit := splitCommand_space hw hmem
  rw [terminateAtNl_line h10 h0 newline] at hsplit
  exact hsplit

/-- Without one, the newline belongs to the command. -/
theorem splitCommand_bare (c : Command) (newline : Bool) :
    splitCommand (commandLine c none newline) =
      (c.name ++ if newline then [10] else [], []) := by
  obtain ⟨hw, -, hw0⟩ := name_plain c
  show splitCommand (c.name ++ if newline then [10] else []) = _
  apply splitCommand_word <;> cases newline <;> simp [hw, hw0]

end

/-- A message of the type of `c` is sent, with the given text. -/
def Sends (c : Command) (text : List UInt8) (t : Option Turn) : Prop :=
  ∃ turn msg, t = some turn ∧ turn.sent = some msg ∧ msg.type = c.type ∧
    msg.buf.string 0 = some text

/-- There is a text, or no newline. The text fits into `msg.buf`; that of `end`, which is
    not copied, happens to be there. -/
def Recognisable (c : Command) (text : Option (List UInt8)) (newline : Bool) (msg : MsgT) : Prop :=
  (text = none → newline = false) ∧
  if c = .end then msg.buf.string 0 = some (text.getD [])
  else (text.getD []).length < msgBufSize

section

variable {buf : Chars lineSize} {line : List UInt8} {clientId self : ℤ} {msg : MsgT}
  {c : Command}

/-- The code recognises the command, and the text is the right one. -/
theorem sends_iff_of_split {text : List UInt8} (h : buf.string 0 = some line)
    (hsplit : splitCommand line = (c.name, text)) (h0 : 0 ∉ text) :
    Sends c text (turn clientId self msg buf) ↔
      if c = .end then msg.buf.string 0 = some text else text.length < msgBufSize := by
  rw [turn_eq h, hsplit, recognise_eq_some_iff.mpr rfl]
  by_cases hend : c = .end
  · subst hend
    rw [if_pos rfl]
    refine ⟨?_, fun htext => ⟨_, _, rfl, rfl, rfl, htext⟩⟩
    rintro ⟨t, m, ht, hm, -, htext⟩
    cases ht
    cases hm
    exact htext
  · have hrequest : (match some c with
        | none => some .rejected
        | some .end => some (.ending ⟨Command.end.type, clientId, self, msg.buf⟩)
        | some c => (msg.buf.strcpy text).map fun text => .request ⟨c.type, clientId, self, text⟩) =
        (msg.buf.strcpy text).map fun text => Turn.request ⟨c.type, clientId, self, text⟩ := by
      cases c <;> first | rfl | exact absurd rfl hend
    rw [if_neg hend, hrequest]
    constructor
    · rintro ⟨t, m, ht, -, -, -⟩
      obtain ⟨b, hb, -⟩ := Option.map_eq_some_iff.mp ht
      rw [← Nat.not_le, ← Chars.strcpy_eq_none_iff, hb]
      exact Option.some_ne_none b
    · intro hlt
      obtain ⟨b, hb⟩ := msg.buf.strcpy_isSome hlt
      rw [hb]
      exact ⟨_, _, rfl, rfl, rfl, Chars.string_strcpy hb h0⟩

theorem rejected_of_recognise (h : buf.string 0 = some line)
    (hnone : recognise (splitCommand line).1 = none) :
    turn clientId self msg buf = some .rejected := by
  rw [turn_eq h, hnone]

/-- Not one of the names is found in a line that does not begin with it. -/
theorem rejected_of_firstWord (h : buf.string 0 = some line)
    (hword : ∀ c : Command, (line.takeWhile fun b => b ≠ 32 ∧ b ≠ 10) ≠ c.name) :
    turn clientId self msg buf = some .rejected := by
  refine rejected_of_recognise h (Option.eq_none_iff_forall_ne_some.mpr fun c hc => hword c ?_)
  have h0 : ∀ b ∈ line, decide (b ≠ 0) = true := fun b hb =>
    decide_eq_true (ne_of_mem_of_not_mem hb (Chars.notMem_string h))
  have hname : line.takeWhile (· ≠ 32) = c.name := by
    rw [← recognise_eq_some_iff.mp hc, splitCommand, List.takeWhile_eq_self_iff.mpr h0]
  have h10 : ∀ b ∈ c.name, decide (b ≠ 10) = true := fun b hb =>
    decide_eq_true (ne_of_mem_of_not_mem hb (name_plain c).2.1)
  calc line.takeWhile (fun b => b ≠ 32 ∧ b ≠ 10)
      = (line.takeWhile (· ≠ 32)).takeWhile (· ≠ 10) := by
        rw [List.takeWhile_takeWhile]
        congr 1
        funext b
        simp [and_comm]
    _ = c.name := by rw [hname, List.takeWhile_eq_self_iff.mpr h10]

/-- The commands of the documentation are recognised exactly as `Recognisable` says,
    and nothing else is. -/
theorem commands_iff (clientId self : ℤ) (msg : MsgT) (buf : Chars lineSize) :
    (∀ c text newline, (∀ t, text = some t → 10 ∉ t ∧ 0 ∉ t) →
      buf.string 0 = some (commandLine c text newline) →
      (Sends c (text.getD []) (turn clientId self msg buf) ↔
        Recognisable c text newline msg)) ∧
    ∀ line, buf.string 0 = some line →
      (∀ c : Command, (line.takeWhile fun b => b ≠ 32 ∧ b ≠ 10) ≠ c.name) →
      turn clientId self msg buf = some .rejected := by
  refine ⟨fun c text newline htext h => ?_, fun line h => rejected_of_firstWord h⟩
  cases text with
  | some t =>
    obtain ⟨h10, h0⟩ := htext t rfl
    rw [Option.getD_some, sends_iff_of_split h (splitCommand_text h10 h0 newline) h0,
      Recognisable, Option.getD_some]
    simp
  | none =>
    cases newline with
    | false =>
      rw [Option.getD_none, sends_iff_of_split h
        (by rw [splitCommand_bare, if_neg Bool.false_ne_true, List.append_nil]) List.not_mem_nil,
        Recognisable, Option.getD_none]
      simp
    | true =>
      -- the newline makes another word of the command
      have hnone : recognise (splitCommand (commandLine c none true)).1 = none := by
        rw [splitCommand_bare]
        refine Option.eq_none_iff_forall_ne_some.mpr fun d hd => (name_plain d).2.1 ?_
        rw [← recognise_eq_some_iff.mp hd]
        exact List.mem_append_right _ List.mem_cons_self
      refine iff_of_false (fun hs => ?_) fun hr => Bool.noConfusion (hr.1 rfl)
      obtain ⟨t, m, ht, hm, -, -⟩ := hs
      rw [rejected_of_recognise h hnone, Option.some.injEq] at ht
      rw [← ht] at hm
      cases hm

end

/-- The line `mirror ab`. -/
theorem commands_iff_mirror :
    Sends .mirror [97, 98] (turn 1 42 (message 0 0)
      (.ofString (commandLine .mirror (some [97, 98]) true) (by decide))) :=
  ((commands_iff 1 42 (message 0 0) _).1 .mirror (some [97, 98]) true
    (fun _ ht => by cases ht; decide) (Chars.string_ofString (by decide) (by decide))).mpr
    ⟨fun h => absurd h (by decide), by rw [if_neg (by decide)]; decide⟩

/-- `time` with the newline that ends the line is not recognised. -/
theorem time_newline_rejected :
    ¬∀ (clientId self : ℤ) (msg : MsgT) (buf : Chars lineSize),
      buf.string 0 = some (commandLine .time none true) →
      Sends .time [] (turn clientId self msg buf) := by
  intro h
  have hstring := Chars.string_ofString (s := commandLine .time none true) (n := lineSize)
    (by decide) (by decide)
  obtain ⟨t, msg, ht, hmsg, -, -⟩ := h 1 42 (message 0 0) _ hstring
  rw [rejected_of_recognise hstring (by decide), Option.some.injEq] at ht
  rw [← ht] at hmsg
  cases hmsg

section

variable {buf : Chars lineSize} {line : List UInt8} {clientId self : ℤ} {msg : MsgT}
  {c : Command}

/-- The decision of the client that `command` stands for. -/
def Turn.Leads : Turn → Pc → Prop
  | rejected, pc => pc = .read
  | request msg, pc => ∃ type text, pc = .request type text ∧
      messageType msg.type = some type ∧ msg.buf.string 0 = some text
  | ending msg, pc => pc = .sendEnd ∧ messageType msg.type = some .end

theorem command_eq (line : List UInt8) :
    command line =
      match recognise (splitCommand line).1 with
      | none => .read
      | some .mirror => .request .mirror (splitCommand line).2
      | some .calc => .request .calc (splitCommand line).2
      | some .time => .request .time (splitCommand line).2
      | some .end => .sendEnd := by
  unfold command recognise Command.name
  dsimp only
  split_ifs <;> rfl

theorem turn_command {t : Turn} (h : buf.string 0 = some line)
    (ht : turn clientId self msg buf = some t) : t.Leads (command line) := by
  have htext : 0 ∉ (splitCommand line).2 := by
    obtain ⟨buf', i, -, -, hstring⟩ := split_spec h
    exact Chars.notMem_string hstring
  have hrequest : ∀ {c : Command} {type : MessageType}, messageType c.type = some type →
      ((msg.buf.strcpy (splitCommand line).2).map fun text =>
        Turn.request ⟨c.type, clientId, self, text⟩) = some t →
      t.Leads (.request type (splitCommand line).2) := by
    intro c type htype hsome
    obtain ⟨b, hb, rfl⟩ := Option.map_eq_some_iff.mp hsome
    exact ⟨type, _, rfl, htype, Chars.string_strcpy hb htext⟩
  rw [turn_eq h] at ht
  rw [command_eq]
  cases hc : recognise (splitCommand line).1 with
  | none =>
    rw [hc] at ht
    cases ht
    rfl
  | some c =>
    rw [hc] at ht
    cases c with
    | mirror => exact hrequest rfl ht
    | «calc» => exact hrequest rfl ht
    | time => exact hrequest rfl ht
    | «end» =>
      cases ht
      exact ⟨rfl, rfl⟩

end

/-! ## Mirror -/

/-- The text that the client in slot `i` prints for the line in `buf`, when the
    response is delivered; `pid` is the server, and `msg` what is in `msg`. -/
def mirrored (build : Build) (pid : ℤ) (s : State) (e : Env) (i : Slot) (self : ℤ) (msg : MsgT)
    (buf : Chars lineSize) : Option (List UInt8) := do
  let t ← turn i self msg buf
  let msg ← t.sent
  let o ← iterate build pid s msg e
  let resp ← o.2.head?
  resp.2.buf.string 0

section

variable {build : Build} {pid self : ℤ} {s : State} {e : Env} {i : Slot} {msg : MsgT}
  {buf : Chars lineSize} {t : List UInt8} {newline : Bool}

theorem mirrored_eq (hactive : (s.clients i).stopped = false) (h10 : 10 ∉ t) (h0 : 0 ∉ t)
    (h : buf.string 0 = some (commandLine .mirror (some t) newline)) :
    mirrored build pid s e i self msg buf =
      if t.length < msgBufSize then some t.reverse else none := by
  have hturn : turn i self msg buf =
      (msg.buf.strcpy t).map fun text => .request ⟨Command.mirror.type, i, self, text⟩ := by
    rw [turn_eq h, splitCommand_text h10 h0, recognise_eq_some_iff.mpr rfl]
  unfold mirrored
  rw [hturn]
  split
  · rename_i hlt
    obtain ⟨b, hb⟩ := msg.buf.strcpy_isSome hlt
    obtain ⟨r, hiterate, hrs⟩ : ∃ r, iterate build pid s ⟨Command.mirror.type, i, self, b⟩ e =
        some (s, [(i, ⟨i, i, pid, r⟩)]) ∧ r.string 0 = some t.reverse := by
      rw [iterate_slot (by show messageType 2 ≠ _; decide) rfl, hactive, if_neg Bool.false_ne_true]
      refine switch_answer (t := .mirror) rfl (.inl rfl) rfl ?_
      rw [answerText, Chars.string_strcpy hb h0, Option.map_some]
    simp only [hb, Option.map_some, Option.bind_eq_bind, Option.bind_some, Turn.sent, hiterate,
      List.head?_cons, hrs]
  · rename_i hge
    rw [Chars.strcpy_eq_none_iff.mpr (Nat.le_of_not_lt hge)]
    rfl

end

/-- Mirroring works for the texts that fit into `msg.buf`, and it is its own inverse;
    a longer text is written behind `msg.buf`. -/
theorem mirror_iff (build : Build) (pid self : ℤ) (s : State) (e : Env) (i : Slot) (msg : MsgT)
    (buf : Chars lineSize) (t : List UInt8) (newline : Bool)
    (hactive : (s.clients i).stopped = false) (h10 : 10 ∉ t) (h0 : 0 ∉ t)
    (h : buf.string 0 = some (commandLine .mirror (some t) newline)) :
    (mirrored build pid s e i self msg buf = some t.reverse ∧
      ∀ buf' : Chars lineSize,
        buf'.string 0 = some (commandLine .mirror (some t.reverse) newline) →
        mirrored build pid s e i self msg buf' = some t) ↔
      t.length < msgBufSize := by
  rw [mirrored_eq hactive h10 h0 h]
  constructor
  · intro hs
    by_contra hge
    rw [if_neg hge] at hs
    cases hs.1
  · intro hlt
    refine ⟨if_pos hlt, fun buf' h' => ?_⟩
    rw [mirrored_eq hactive (by rwa [List.mem_reverse]) (by rwa [List.mem_reverse]) h',
      List.length_reverse, if_pos hlt, List.reverse_reverse]

/-- Slot 1 is that of a client. -/
def oneClient : State :=
  { State.initial with
    clients := Function.update State.initial.clients 1 ⟨42, 1, false, 3⟩ }

theorem mirror_iff_short :
    (mirrored .systemV 7 oneClient (quiet (message 0 0)) 1 42 (message 0 0)
        (.ofString (commandLine .mirror (some [97, 98]) true) (by decide)) = some [98, 97] ∧
      ∀ buf' : Chars lineSize, buf'.string 0 = some (commandLine .mirror (some [98, 97]) true) →
        mirrored .systemV 7 oneClient (quiet (message 0 0)) 1 42 (message 0 0) buf' =
          some [97, 98]) ↔ 2 < msgBufSize :=
  mirror_iff .systemV 7 42 oneClient (quiet (message 0 0)) 1 (message 0 0) _ [97, 98] true rfl
    (by decide) (by decide) (Chars.string_ofString (by decide) (by decide))

/-- 256 characters do not come back. -/
theorem mirror_overflow :
    ∃ buf : Chars lineSize,
      buf.string 0 = some (commandLine .mirror (some (List.replicate 256 97)) true) ∧
      ∀ build pid s e i self msg, (s.clients i).stopped = false →
        mirrored build pid s e i self msg buf = none := by
  have hmem : ∀ b : UInt8, b ≠ 97 → b ∉ List.replicate 256 97 := fun b hb h =>
    hb (List.eq_of_mem_replicate h)
  have hline : 0 ∉ commandLine .mirror (some (List.replicate 256 97)) true := by
    rw [commandLine, List.mem_append, List.mem_append, Option.elim_some, List.mem_cons,
      if_pos rfl, List.mem_singleton]
    rintro (h | (h | h) | h)
    · exact (name_plain .mirror).2.2 h
    · exact absurd h (by decide)
    · exact hmem 0 (by decide) h
    · exact absurd h (by decide)
  have hlen : (commandLine .mirror (some (List.replicate 256 97)) true).length < lineSize := by
    simp only [commandLine, List.length_append, Option.elim_some, List.length_cons,
      List.length_replicate, if_true, List.length_nil]
    decide
  have hstring := Chars.string_ofString hlen hline
  refine ⟨_, hstring, fun build pid s e i self msg hactive => ?_⟩
  rw [mirrored_eq hactive (hmem 10 (by decide)) (hmem 0 (by decide)) hstring,
    List.length_replicate]
  rfl

end AghOs.MsgQueue.Dispatch
