import AghOs.Machine.Sh
import AghOs.MsgQueue.Dispatch

/-!
# The command for `bc`

`case CALC` of the server (`server.c`, lines 225–231) puts the text of the message
between single quotes into a command for `popen`.

* `calc_iff`: the command passes the text to `bc`, and nothing else, if and only if there
  is no single quote in it.
* `calc_injection`: what the shell makes of `';ls'`.
-/

namespace AghOs.MsgQueue.Dispatch

/-- `echo '` -/
def calcBefore : List UInt8 := [101, 99, 104, 111, 32, 39]

/-- `' | bc 2>&1` -/
def calcAfter : List UInt8 := [39, 32, 124, 32, 98, 99, 32, 50, 62, 38, 49]

/-- `echo '%s' | bc 2>&1` -/
def calcCommand (text : List UInt8) : List UInt8 := calcBefore ++ (text ++ calcAfter)

/-- `echo` with one argument -/
def echo (arg : List UInt8) : Sh.Simple := ⟨[[101, 99, 104, 111], arg], []⟩

/-- `bc 2>&1` -/
def bc : Sh.Simple := ⟨[[98, 99]], [⟨some [50], [62, 38], [49]⟩]⟩

/-- The command fits into `malloc(strlen(msg.buf) + 18)`; the shell runs `echo` with the
    text as its only argument and `bc`, and takes every character of the text for itself. -/
structure PassedToBc (text : List UInt8) : Prop where
  fits : ∀ cmd : Chars (text.length + 18), ∃ cmd',
    cmd.strcpy (calcCommand text) = some cmd' ∧ cmd'.string 0 = some (calcCommand text)
  pipeline : Sh.pipeline (calcCommand text) = some [echo text, bc]
  literal : ∀ r ∈ ((Sh.roles (calcCommand text)).drop calcBefore.length).take text.length,
    r = .literal

section

variable {text : List UInt8}

theorem length_calcCommand (text : List UInt8) :
    (calcCommand text).length = text.length + 17 := by
  rw [calcCommand, List.length_append, List.length_append]
  show 6 + (text.length + 11) = _
  omega

/-- `17` characters and the NUL. -/
theorem calcCommand_fits (h0 : 0 ∉ text) (cmd : Chars (text.length + 18)) :
    ∃ cmd', cmd.strcpy (calcCommand text) = some cmd' ∧
      cmd'.string 0 = some (calcCommand text) := by
  obtain ⟨cmd', hcmd⟩ := cmd.strcpy_isSome (s := calcCommand text)
    (by rw [length_calcCommand]; omega)
  refine ⟨cmd', hcmd, Chars.string_strcpy hcmd ?_⟩
  rw [calcCommand, List.mem_append, List.mem_append]
  rintro (h | h | h)
  · exact absurd h (by decide)
  · exact h0 h
  · exact absurd h (by decide)

/-- Behind `echo '`. -/
def inQuotes : Sh.Scan :=
  ⟨.single, some ⟨[], true, false⟩, [], [.word ⟨[101, 99, 104, 111], false, false⟩]⟩

theorem scan_calcBefore : (Sh.scan .start calcBefore).2 = inQuotes := by decide

/-- The text is scanned between single quotes. -/
theorem roles_calcCommand (text : List UInt8) :
    ((Sh.roles (calcCommand text)).drop calcBefore.length).take text.length =
      ((Sh.scan inQuotes (text ++ calcAfter)).1).take text.length := by
  rw [Sh.roles, calcCommand, Sh.scan_append, scan_calcBefore]
  dsimp only
  rw [← Sh.length_scan .start calcBefore, List.drop_left]

/-- The single quote behind the text ends the word. -/
theorem scan_calcAfter (w : Sh.Word) (ts : List Sh.Token) :
    (Sh.scan ⟨.single, some w, [], ts⟩ calcAfter).2 =
      ⟨.plain, some ⟨[49], false, false⟩, [],
        ts ++ [.word w, .operator [124], .word ⟨[98, 99], false, false⟩, .ioNumber [50],
          .operator [62, 38]]⟩ := by
  simp [calcAfter, Sh.scan, Sh.Scan.step, Sh.Scan.plain, Sh.Scan.endOp, Sh.Scan.endWord,
    Sh.Scan.add, Sh.Scan.begun, Sh.operators, Sh.expansions]

theorem tokenize_calcCommand (h : 39 ∉ text) :
    Sh.tokenize (calcCommand text) =
      some [.word ⟨[101, 99, 104, 111], false, false⟩, .word ⟨text, true, false⟩,
        .operator [124], .word ⟨[98, 99], false, false⟩, .ioNumber [50], .operator [62, 38],
        .word ⟨[49], false, false⟩] := by
  rw [Sh.tokenize, calcCommand, Sh.scan_append, scan_calcBefore, Sh.scan_append,
    Sh.scan_single rfl rfl h]
  dsimp only [inQuotes]
  rw [scan_calcAfter]
  rfl

theorem passedToBc (h0 : 0 ∉ text) (h : 39 ∉ text) : PassedToBc text where
  fits := calcCommand_fits h0
  pipeline := by
    rw [Sh.pipeline, tokenize_calcCommand h]
    rfl
  literal r hr := by
    rw [roles_calcCommand, Sh.scan_append, Sh.scan_single rfl rfl h,
      List.take_left' List.length_replicate] at hr
    exact List.eq_of_mem_replicate hr

theorem quote_interpreted (h : 39 ∈ text) : ¬PassedToBc text := by
  intro hp
  obtain ⟨as, bs, rfl, has⟩ := List.eq_append_cons_of_mem h
  have hquote := Sh.scan_single_quote (s := inQuotes) rfl rfl has (bs ++ calcAfter)
  have hlt : as.length < (as ++ 39 :: bs).length := by
    rw [List.length_append, List.length_cons]
    omega
  have hmem : Sh.Role.quoting ∈
      ((Sh.roles (calcCommand (as ++ 39 :: bs))).drop calcBefore.length).take
        (as ++ 39 :: bs).length := by
    rw [roles_calcCommand, List.append_assoc, List.cons_append]
    refine List.mem_of_getElem? (i := as.length) ?_
    rw [List.getElem?_take_of_lt hlt]
    exact hquote
  cases hp.literal _ hmem

end

/-- The payload of a CALC message is passed to `bc` if and only if it has no single
    quote. -/
theorem calc_iff (m : MsgT) (text : List UInt8) (h : m.buf.string 0 = some text) :
    PassedToBc text ↔ 39 ∉ text :=
  ⟨fun hp hmem => quote_interpreted hmem hp, passedToBc (Chars.notMem_string h)⟩

/-- The expression `1`. -/
theorem calc_iff_one : PassedToBc [49] ↔ 39 ∉ [(49 : UInt8)] :=
  calc_iff ⟨3, 0, 42, .ofString [49] (by decide)⟩ [49]
    (Chars.string_ofString (by decide) (by decide))

/-- `';ls'` is a command of its own: the shell finds the words `echo`, an empty one, and
    `ls` behind a semicolon. -/
theorem calc_injection :
    Sh.tokenize (calcCommand [39, 59, 108, 115, 39]) =
      some [.word ⟨[101, 99, 104, 111], false, false⟩, .word ⟨[], true, false⟩, .operator [59],
        .word ⟨[108, 115], true, false⟩, .operator [124], .word ⟨[98, 99], false, false⟩,
        .ioNumber [50], .operator [62, 38], .word ⟨[49], false, false⟩] ∧
    ¬PassedToBc [39, 59, 108, 115, 39] :=
  ⟨by decide, quote_interpreted (by decide)⟩

end AghOs.MsgQueue.Dispatch
