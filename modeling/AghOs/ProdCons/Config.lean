import AghOs.Machine.Scanf
import AghOs.Machine.Strtok

/-!
# The configuration file

`trim` and `__cl_read_config` (cw09/zad1/src/cl.c:9-69). The three calls of `strtok`
on a line work on the one buffer and on the one position that `strtok` keeps; what
the buffer holds behind a line, and the position, are left from the lines before.

* `turn_setting`: a well-formed line sets its field, whatever is behind it.
* `clReadConfig_fileText`: a file does what its lines do one after another.
* `read_config`: each field is given by the last line with its key, and lines with
  different keys can be permuted.
-/

namespace AghOs.ProdCons.Config

/-! ## `struct cl` -/

/-- `enum comparison_t` -/
inductive Comparison
  | gt
  | lt
  | eq
  deriving DecidableEq

/-- `struct cl` -/
@[ext] structure Cl where
  producers : ℤ
  consumers : ℤ
  bufferSize : ℤ
  filename : List UInt8
  lineLength : ℤ
  cmp : Comparison
  timeLimit : ℤ
  verbose : ℤ
  sleep : ℤ
  filename_length : filename.length = 256

namespace Cl

/-- The values that are set before the file is read. -/
def defaults (cl : Cl) : Cl :=
  { cl with timeLimit := 0, lineLength := -1, cmp := .gt, verbose := 0, sleep := 0 }

theorem strcpy_length {dst src : List UInt8} (hdst : dst.length = 256) (hsrc : src.length < 256) :
    (src ++ 0 :: dst.drop (src.length + 1)).length = 256 := by
  simp only [List.length_append, List.length_cons, List.length_drop]
  omega

/-- `strcpy(cl->filename, src)`, for a string that fits. -/
def strcpy (cl : Cl) (src : List UInt8) (h : src.length < 256) : Cl :=
  { cl with
    filename := src ++ 0 :: cl.filename.drop (src.length + 1)
    filename_length := strcpy_length cl.filename_length h }

end Cl

/-- The keys whose value is an `int`. -/
inductive NumberKey
  | producers
  | consumers
  | bufferSize
  | timeLimit
  | verbose
  | sleep
  deriving DecidableEq

inductive Key
  | number (k : NumberKey)
  | file
  | length
  deriving DecidableEq

/-- `"producers"`, `"consumers"`, `"buffer-size"`, `"time-limit"`, `"verbose"` and
    `"sleep"` -/
def NumberKey.text : NumberKey → List UInt8
  | producers => [112, 114, 111, 100, 117, 99, 101, 114, 115]
  | consumers => [99, 111, 110, 115, 117, 109, 101, 114, 115]
  | bufferSize => [98, 117, 102, 102, 101, 114, 45, 115, 105, 122, 101]
  | timeLimit => [116, 105, 109, 101, 45, 108, 105, 109, 105, 116]
  | verbose => [118, 101, 114, 98, 111, 115, 101]
  | sleep => [115, 108, 101, 101, 112]

/-- `"file"` and `"length"` -/
def Key.text : Key → List UInt8
  | number k => k.text
  | file => [102, 105, 108, 101]
  | length => [108, 101, 110, 103, 116, 104]

/-- The field of a key. -/
def Cl.number (cl : Cl) : NumberKey → ℤ
  | .producers => cl.producers
  | .consumers => cl.consumers
  | .bufferSize => cl.bufferSize
  | .timeLimit => cl.timeLimit
  | .verbose => cl.verbose
  | .sleep => cl.sleep

def Cl.setNumber (cl : Cl) (v : ℤ) : NumberKey → Cl
  | .producers => { cl with producers := v }
  | .consumers => { cl with consumers := v }
  | .bufferSize => { cl with bufferSize := v }
  | .timeLimit => { cl with timeLimit := v }
  | .verbose => { cl with verbose := v }
  | .sleep => { cl with sleep := v }

/-! ## `__cl_read_config` -/

/-- `BUF_S`: `4 * 1024` -/
def bufS : ℕ := 4 * 1024

/-- `trim` -/
def trim (t : TokenBuffer) (str : Option ℕ) : Option (Option ℕ × TokenBuffer) := do
  let str ← str
  t.strtok (some (t.span (· == 32) str)) [32]

/-- The value of `length`: `<` or `>` before the number. -/
def Cl.setLength (cl : Cl) : List UInt8 → Cl
  | 60 :: value => { cl with cmp := .lt, lineLength := atoi value }
  | 62 :: value => { cl with cmp := .gt, lineLength := atoi value }
  | value => { cl with cmp := .eq, lineLength := atoi value }

/-- The comparisons of `name`; `value` is the string there, if there is one. Either
    `0`, to go on, or the value that is returned. -/
def assign (cl : Cl) (name : List UInt8) (value : Option (List UInt8)) : Option (ℤ × Cl) :=
  if name = (Key.number .producers).text then
    value.map fun v => (0, cl.setNumber (atoi v) .producers)
  else if name = (Key.number .consumers).text then
    value.map fun v => (0, cl.setNumber (atoi v) .consumers)
  else if name = (Key.number .bufferSize).text then
    value.map fun v => (0, cl.setNumber (atoi v) .bufferSize)
  else if name = Key.file.text then
    value.bind fun v => if h : v.length < 256 then some (0, cl.strcpy v h) else none
  else if name = (Key.number .timeLimit).text then
    value.map fun v => (0, cl.setNumber (atoi v) .timeLimit)
  else if name = (Key.number .verbose).text then
    value.map fun v => (0, cl.setNumber (atoi v) .verbose)
  else if name = (Key.number .sleep).text then
    value.map fun v => (0, cl.setNumber (atoi v) .sleep)
  else if name = Key.length.text then value.map fun v => (0, cl.setLength v)
  else some (-1, cl)

/-- The loop body behind the test for an empty line. -/
def turn (cl : Cl) (t : TokenBuffer) : Option (ℤ × Cl × TokenBuffer) := do
  let (name, t) ← t.strtok (some 0) [61]
  let (value, t) ← t.strtok none [10]
  let (name, t) ← trim t name
  let (value, t) ← trim t value
  let name ← t.string name
  let (r, cl) ← assign cl name (t.string value)
  some (r, cl, t)

/-- The loop of `__cl_read_config`, with `stream` still to be read. -/
def configLoop (cl : Cl) (t : TokenBuffer) (stream : List UInt8) : Option (ℤ × Cl) :=
  match _h : t.fgets bufS stream with
  | none => some (0, cl)
  | some (t, stream) =>
    match t.buf[0]? with
    | none => none
    | some c =>
      if c = 0 ∨ c = 10 then configLoop cl t stream
      else match turn cl t with
        | none => none
        | some (r, cl, t) => if r = 0 then configLoop cl t stream else some (r, cl)
termination_by stream.length
decreasing_by
  all_goals exact TokenBuffer.fgets_lt (by decide) _h

/-- `__cl_read_config` -/
def clReadConfig (cl : Cl) (t : TokenBuffer) (stream : List UInt8) : Option (ℤ × Cl) :=
  configLoop cl.defaults t stream

/-! ## Well-formed lines -/

/-- A value, or a key, as it stands in a line. -/
structure Token (l : List UInt8) : Prop where
  ne : l ≠ []
  chars : ∀ c ∈ l, c ≠ 0 ∧ c ≠ 10 ∧ c ≠ 32

/-- An integer that fits an `int`, as it is written. -/
structure IntText where
  num : Numeral
  lo : -2 ^ 31 ≤ num.value
  hi : num.value < 2 ^ 31

structure FileName where
  text : List UInt8
  token : Token text
  length : text.length < 256

/-- What a line sets. -/
inductive Setting
  | number (k : NumberKey) (n : IntText)
  | file (name : FileName)
  | length (cmp : Comparison) (n : IntText)

def Comparison.text : Comparison → List UInt8
  | lt => [60]
  | gt => [62]
  | eq => []

namespace Setting

def key : Setting → Key
  | number k _ => .number k
  | file _ => .file
  | length _ _ => .length

def value : Setting → List UInt8
  | number _ n => n.num.text
  | file name => name.text
  | length cmp n => cmp.text ++ n.num.text

def apply (cl : Cl) : Setting → Cl
  | number k n => cl.setNumber n.num.value k
  | file name => cl.strcpy name.text name.length
  | length cmp n => { cl with cmp := cmp, lineLength := n.num.value }

end Setting

/-- A line of the file: the numbers are those of spaces before the key, before and
    behind the `=`, and at the end. -/
inductive Line
  | empty
  | setting (lead before after trail : ℕ) (s : Setting)

def spaces (n : ℕ) : List UInt8 := List.replicate n 32

namespace Line

def text : Line → List UInt8
  | empty => []
  | setting lead before after trail s =>
    spaces lead ++ s.key.text ++ spaces before ++ 61 :: (spaces after ++ s.value ++ spaces trail)

def setting? : Line → Option Setting
  | empty => none
  | setting _ _ _ _ s => some s

def apply (cl : Cl) : Line → Cl
  | empty => cl
  | setting _ _ _ _ s => s.apply cl

end Line

/-- The file with these lines; `newline` says whether the last one has its newline. -/
def fileText (newline : Bool) : List Line → List UInt8
  | [] => []
  | [l] => l.text ++ if newline then [10] else []
  | l :: lines => l.text ++ 10 :: fileText newline lines

theorem Key.token (k : Key) : Token k.text := by
  cases k with
  | number k => cases k <;> exact ⟨List.cons_ne_nil _ _, by simp [Key.text, NumberKey.text]⟩
  | file => exact ⟨List.cons_ne_nil _ _, by simp [Key.text]⟩
  | length => exact ⟨List.cons_ne_nil _ _, by simp [Key.text]⟩

theorem Key.equals_sign (k : Key) : 61 ∉ k.text := by
  cases k with
  | number k => cases k <;> decide
  | file => decide
  | length => decide

theorem token_append {pre : List UInt8} (hpre : ∀ c ∈ pre, c ≠ 0 ∧ c ≠ 10 ∧ c ≠ 32) (n : Numeral) :
    Token (pre ++ n.text) where
  ne := List.append_ne_nil_of_right_ne_nil _ n.text_ne
  chars c hc := by
    obtain hc | hc := List.mem_append.mp hc
    · exact hpre c hc
    · obtain hd | rfl | rfl := Numeral.mem_text hc
      · refine ⟨?_, ?_, ?_⟩ <;> rintro rfl <;> cases hd
      · decide
      · decide

theorem Setting.token (s : Setting) : Token s.value := by
  cases s with
  | number k n =>
    have h := token_append (List.forall_mem_nil _) n.num
    exact h
  | file name => exact name.token
  | length cmp n => exact token_append (by cases cmp <;> simp [Comparison.text]) n.num

/-! ## A line -/

theorem IntText.atoi_text (n : IntText) : atoi n.num.text = n.num.value :=
  n.num.atoi_text n.lo n.hi

theorem Cl.setLength_eq (cl : Cl) (cmp : Comparison) (n : IntText) :
    cl.setLength (cmp.text ++ n.num.text) =
      { cl with cmp := cmp, lineLength := n.num.value } := by
  rw [← n.atoi_text]
  cases cmp with
  | lt => rfl
  | gt => rfl
  | eq =>
    show cl.setLength n.num.text = _
    unfold setLength
    split
    -- A numeral does not start with `<` or `>`.
    · rename_i v hv
      have h60 := Numeral.mem_text (hv ▸ List.mem_cons_self : (60 : UInt8) ∈ n.num.text)
      exact absurd h60 (by decide)
    · rename_i v hv
      have h62 := Numeral.mem_text (hv ▸ List.mem_cons_self : (62 : UInt8) ∈ n.num.text)
      exact absurd h62 (by decide)
    · rfl

theorem Setting.assign_eq (s : Setting) (cl : Cl) :
    assign cl s.key.text (some s.value) = some (0, s.apply cl) := by
  cases s with
  | number k n =>
    show assign cl k.text (some n.num.text) = some (0, cl.setNumber n.num.value k)
    rw [← n.atoi_text]
    cases k <;> rfl
  | file name => exact dif_pos name.length
  | length cmp n =>
    show some (0, cl.setLength (cmp.text ++ n.num.text)) = _
    rw [cl.setLength_eq]
    rfl

/-- `trim` skips the spaces. -/
theorem trim_spaces {t : TokenBuffer} {pre as : List UInt8} {n : ℕ} {a : UInt8}
    (h : t.buf = pre ++ (spaces n ++ a :: as)) (ha : a ≠ 32) :
    trim t (some pre.length) = t.strtok (some (pre ++ spaces n).length) [32] := by
  have hspan := TokenBuffer.span_append (p := (· == 32)) h
    (fun b hb => beq_iff_eq.mpr (List.eq_of_mem_replicate hb)) (beq_false_of_ne ha)
  unfold trim
  rw [Option.bind_eq_bind, Option.bind_some, hspan, List.length_append]

/-- `trim` of a token with spaces around it. -/
theorem trim_token {t : TokenBuffer} {pre tok z : List UInt8} (htok : Token tok) {before after : ℕ}
    (h : t.buf = pre ++ (spaces before ++ (tok ++ (spaces after ++ 0 :: z)))) :
    ∃ w saved, w.length = after ∧
      trim t (some pre.length) = some (some (pre ++ spaces before).length,
        ⟨pre ++ (spaces before ++ (tok ++ 0 :: (w ++ z))), saved⟩) := by
  obtain ⟨c, w, hw, hlen, hc⟩ : ∃ c w, spaces after ++ 0 :: z = c :: (w ++ z) ∧
      w.length = after ∧ (c = 0 ∨ c ∈ [32]) := by
    cases after with
    | zero => exact ⟨0, [], rfl, rfl, .inl rfl⟩
    | succ n => exact ⟨32, spaces n ++ [0], by simp [spaces, List.replicate_succ], by simp [spaces],
        .inr List.mem_cons_self⟩
  obtain ⟨a, tok', ha⟩ := List.exists_cons_of_ne_nil htok.ne
  have ha32 : a ≠ 32 := (htok.chars a (ha ▸ List.mem_cons_self)).2.2
  have hspaces : t.buf = pre ++ (spaces before ++ a :: (tok' ++ (spaces after ++ 0 :: z))) := by
    rw [h, ha]
    rfl
  have hbuf : t.buf = (pre ++ spaces before) ++ (tok ++ c :: (w ++ z)) := by
    rw [h, hw, List.append_assoc]
  have hstrtok := TokenBuffer.strtok_token (some (pre ++ spaces before).length) [32] hbuf rfl
    htok.ne (fun b hb => ⟨by simpa using (htok.chars b hb).2.2, (htok.chars b hb).1⟩) hc
  rw [List.append_assoc] at hstrtok
  exact ⟨w, _, hlen, (trim_spaces hspaces ha32).trans hstrtok⟩

/-- `name = strtok(buf, "=")` and `value = strtok(NULL, "\n")`. -/
theorem split_line {t : TokenBuffer} {name value z : List UInt8} {c : UInt8}
    (h : t.buf = name ++ 61 :: (value ++ c :: z)) (hname : name ≠ []) (hvalue : value ≠ [])
    (hn : ∀ b ∈ name, b ∉ [61] ∧ b ≠ 0) (hv : ∀ b ∈ value, b ∉ [10] ∧ b ≠ 0)
    (hc : c = 0 ∨ c ∈ [10]) :
    ∃ t₁ t₂, t.strtok (some 0) [61] = some (some 0, t₁) ∧
      t₁.strtok none [10] = some (some (name ++ [0]).length, t₂) ∧
      t₂.buf = name ++ 0 :: (value ++ 0 :: z) := by
  have hbuf : t.buf = [] ++ (name ++ 61 :: (value ++ c :: z)) := h
  have h₁ := TokenBuffer.strtok_token (some 0) [61] hbuf rfl hname hn (.inr List.mem_cons_self)
  have hbuf₁ : [] ++ (name ++ 0 :: (value ++ c :: z)) = (name ++ [0]) ++ (value ++ c :: z) := by
    simp
  rw [hbuf₁] at h₁
  have hsaved : Option.or none (some (([] : List UInt8).length + name.length +
      if (61 : UInt8) = 0 then 0 else 1)) = some (name ++ [0]).length := by
    simp
  refine ⟨_, _, h₁, TokenBuffer.strtok_token none [10] rfl hsaved hvalue hv hc, ?_⟩
  simp

/-- `name = trim(name)` and `value = trim(value)`, where `name` is at the start of the
    buffer and `value` behind its end. -/
theorem trim_both {t : TokenBuffer} {key value z : List UInt8} {lead before after trail : ℕ}
    (hkey : Token key) (hvalue : Token value)
    (h : t.buf = (spaces lead ++ (key ++ spaces before)) ++
      0 :: (spaces after ++ (value ++ (spaces trail ++ 0 :: z)))) :
    ∃ t₁ t₂ name value', trim t (some 0) = some (name, t₁) ∧
      trim t₁ (some (spaces lead ++ (key ++ spaces before) ++ [0]).length) = some (value', t₂) ∧
      t₂.string name = some key ∧ t₂.string value' = some value ∧
      t₂.buf.length = t.buf.length := by
  have hbuf : t.buf = [] ++ (spaces lead ++ (key ++ (spaces before ++
      0 :: (spaces after ++ (value ++ (spaces trail ++ 0 :: z)))))) := by
    rw [h]
    simp
  obtain ⟨w, saved, hw, h₁⟩ := trim_token hkey hbuf
  obtain ⟨w', saved', hw', h₂⟩ := trim_token (t := ⟨spaces lead ++ (key ++
      0 :: w) ++ (spaces after ++ (value ++ (spaces trail ++ 0 :: z))), saved⟩) hvalue rfl
  have hlen : (spaces lead ++ (key ++ spaces before) ++ [0]).length =
      (spaces lead ++ (key ++ 0 :: w)).length := by
    simp [spaces, hw]
  have hassoc : [] ++ (spaces lead ++ (key ++ 0 :: (w ++ (spaces after ++ (value ++
      (spaces trail ++ 0 :: z)))))) =
      spaces lead ++ (key ++ 0 :: w) ++ (spaces after ++ (value ++ (spaces trail ++ 0 :: z))) := by
    simp
  rw [hassoc] at h₁
  refine ⟨_, _, _, _, h₁, hlen ▸ h₂, ?_, ?_, ?_⟩
  · have hn : spaces lead ++ (key ++ 0 :: w) ++ (spaces after ++ (value ++ 0 :: (w' ++ z))) =
        ([] ++ spaces lead) ++
          (key ++ 0 :: (w ++ (spaces after ++ (value ++ 0 :: (w' ++ z))))) := by
      simp
    exact TokenBuffer.string_append hn fun h0 => (hkey.chars 0 h0).1 rfl
  · have hv : spaces lead ++ (key ++ 0 :: w) ++ (spaces after ++ (value ++ 0 :: (w' ++ z))) =
        (spaces lead ++ (key ++ 0 :: w) ++ spaces after) ++ (value ++ 0 :: (w' ++ z)) := by
      simp
    exact TokenBuffer.string_append hv fun h0 => (hvalue.chars 0 h0).1 rfl
  · rw [h]
    simp [spaces, hw, hw']
    omega

theorem mem_padded {l : List UInt8} {m n : ℕ} {b : UInt8}
    (hb : b ∈ spaces m ++ (l ++ spaces n)) : b = 32 ∨ b ∈ l := by
  obtain hb | hb := List.mem_append.mp hb
  · exact .inl (List.eq_of_mem_replicate hb)
  · obtain hb | hb := List.mem_append.mp hb
    · exact .inr hb
    · exact .inl (List.eq_of_mem_replicate hb)

/-- A well-formed line is set, with its newline or at the end of the file. -/
theorem turn_setting {t : TokenBuffer} {z : List UInt8} {c : UInt8} {lead before after trail : ℕ}
    {s : Setting} (h : t.buf = (Line.setting lead before after trail s).text ++ c :: z)
    (hc : c = 0 ∨ c = 10) (cl : Cl) :
    ∃ t', turn cl t = some (0, s.apply cl, t') ∧ t'.buf.length = t.buf.length := by
  have hkey := s.key.token
  have hvalue := s.token
  have hn : ∀ b ∈ spaces lead ++ (s.key.text ++ spaces before), b ∉ [61] ∧ b ≠ 0 := by
    intro b hb
    obtain rfl | hb := mem_padded hb
    · decide
    · exact ⟨by simpa using ne_of_mem_of_not_mem hb s.key.equals_sign, (hkey.chars b hb).1⟩
  have hv : ∀ b ∈ spaces after ++ (s.value ++ spaces trail), b ∉ [10] ∧ b ≠ 0 := by
    intro b hb
    obtain rfl | hb := mem_padded hb
    · decide
    · exact ⟨by simpa using (hvalue.chars b hb).2.1, (hvalue.chars b hb).1⟩
  have hbuf : t.buf = (spaces lead ++ (s.key.text ++ spaces before)) ++
      61 :: (spaces after ++ (s.value ++ spaces trail) ++ c :: z) := by
    rw [h]
    simp [Line.text]
  obtain ⟨t₁, t₂, h₁, h₂, hbuf₂⟩ := split_line hbuf (by simp [hkey.ne]) (by simp [hvalue.ne]) hn hv
    (by simpa using hc)
  have hlen : t₂.buf.length = t.buf.length := by
    rw [hbuf, hbuf₂]
    simp
  have hbuf₃ : t₂.buf = (spaces lead ++ (s.key.text ++ spaces before)) ++
      0 :: (spaces after ++ (s.value ++ (spaces trail ++ 0 :: z))) := by
    rw [hbuf₂]
    simp
  obtain ⟨t₃, t₄, name, value, h₃, h₄, hname, hvalue', hlen'⟩ := trim_both hkey hvalue hbuf₃
  refine ⟨t₄, ?_, hlen'.trans hlen⟩
  unfold turn
  simp only [Option.bind_eq_bind, h₁, h₂, h₃, h₄, hname, hvalue', Option.bind_some, s.assign_eq]

theorem Line.mem_text {l : Line} {b : UInt8} (h : b ∈ l.text) : b ≠ 0 ∧ b ≠ 10 := by
  have hspace : (32 : UInt8) ≠ 0 ∧ (32 : UInt8) ≠ 10 := by decide
  cases l with
  | empty => cases h
  | setting lead before after trail s =>
    have h' : b ∈ (spaces lead ++ (s.key.text ++ spaces before)) ++
        61 :: (spaces after ++ (s.value ++ spaces trail)) := by
      simpa [Line.text] using h
    obtain h' | h' := List.mem_append.mp h'
    · obtain rfl | hb := mem_padded h'
      · exact hspace
      · exact ⟨(s.key.token.chars b hb).1, (s.key.token.chars b hb).2.1⟩
    · obtain rfl | h' := List.mem_cons.mp h'
      · decide
      · obtain rfl | hb := mem_padded h'
        · exact hspace
        · exact ⟨(s.token.chars b hb).1, (s.token.chars b hb).2.1⟩

/-! ## The file -/

section

variable {cl : Cl} {t t' : TokenBuffer} {stream rest z : List UInt8} {c : UInt8}

theorem configLoop_nil : configLoop cl t [] = some (0, cl) := by
  rw [configLoop]
  rfl

theorem configLoop_eq (h : t.fgets bufS stream = some (t', rest)) (hc : t'.buf[0]? = some c) :
    configLoop cl t stream =
      if c = 0 ∨ c = 10 then configLoop cl t' rest
      else match turn cl t' with
        | none => none
        | some (r, cl, t) => if r = 0 then configLoop cl t rest else some (r, cl) := by
  rw [configLoop]
  split
  · rename_i hf
    rw [h] at hf
    cases hf
  · rename_i hf
    rw [h] at hf
    cases hf
    rw [hc]

theorem configLoop_setting {lead before after trail : ℕ} {s : Setting}
    (h : t.fgets bufS stream = some (t', rest))
    (hbuf : t'.buf = (Line.setting lead before after trail s).text ++ c :: z)
    (hc : c = 0 ∨ c = 10) (cl : Cl) :
    ∃ t'', t''.buf.length = t'.buf.length ∧
      configLoop cl t stream = configLoop (s.apply cl) t'' rest := by
  obtain ⟨a, tail, ha⟩ : ∃ a tail, (Line.setting lead before after trail s).text = a :: tail :=
    List.exists_cons_of_ne_nil (by simp [Line.text])
  have hmem := Line.mem_text (ha ▸ List.mem_cons_self :
    a ∈ (Line.setting lead before after trail s).text)
  have hhead : t'.buf[0]? = some a := by
    rw [hbuf, ha]
    rfl
  obtain ⟨t'', hturn, hlen⟩ := turn_setting hbuf hc cl
  refine ⟨t'', hlen, ?_⟩
  rw [configLoop_eq h hhead, if_neg (not_or.mpr hmem), hturn]
  rfl

theorem configLoop_newline (ht : t.buf.length = bufS) (cl : Cl) (rest : List UInt8) :
    ∃ t', t'.buf.length = bufS ∧ configLoop cl t (10 :: rest) = configLoop cl t' rest := by
  have hread : t.fgets bufS ([] ++ 10 :: rest) = some (t.setLine ([] ++ [10]), rest) :=
    TokenBuffer.fgets_newline List.not_mem_nil (by decide)
  have hlen : (t.setLine ([] ++ [10])).buf.length = t.buf.length :=
    TokenBuffer.setLine_length (by rw [ht]; decide)
  exact ⟨_, hlen.trans ht, configLoop_eq hread rfl⟩

/-- A line with its newline. One that fills the buffer is read without its newline,
    which is then taken for an empty line. -/
theorem configLoop_line {l : Line} (ht : t.buf.length = bufS) (hl : l.text.length < bufS)
    (cl : Cl) (rest : List UInt8) :
    ∃ t', t'.buf.length = bufS ∧
      configLoop cl t (l.text ++ 10 :: rest) = configLoop (l.apply cl) t' rest := by
  have h10 : 10 ∉ l.text := fun h => (Line.mem_text h).2 rfl
  cases l with
  | empty => exact configLoop_newline ht cl rest
  | setting lead before after trail s =>
    have hne : (Line.setting lead before after trail s).text ≠ [] := by simp [Line.text]
    generalize htext : (Line.setting lead before after trail s).text = b at hl h10 hne ⊢
    by_cases hfull : b.length + 1 = bufS
    · have htake : (b ++ 10 :: rest).take (bufS - 1) = b := by
        rw [← hfull, Nat.add_sub_cancel, List.take_left]
      have hread := TokenBuffer.fgets_whole (t := t) hne h10 htake
      rw [List.drop_left] at hread
      have hlen : (t.setLine b).buf.length = t.buf.length :=
        TokenBuffer.setLine_length (by rw [ht]; exact hl)
      have hbuf : (t.setLine b).buf = (Line.setting lead before after trail s).text ++
          0 :: t.buf.drop (b.length + 1) := by
        rw [htext]
        rfl
      obtain ⟨t₁, ht₁, h₁⟩ := configLoop_setting hread hbuf (.inl rfl) cl
      obtain ⟨t₂, ht₂, h₂⟩ := configLoop_newline (ht₁.trans (hlen.trans ht)) (s.apply cl) rest
      exact ⟨t₂, ht₂, h₁.trans h₂⟩
    · have hread : t.fgets bufS (b ++ 10 :: rest) = some (t.setLine (b ++ [10]), rest) :=
        TokenBuffer.fgets_newline h10 (by omega)
      have hlen : (t.setLine (b ++ [10])).buf.length = t.buf.length := by
        refine TokenBuffer.setLine_length ?_
        rw [List.length_append, List.length_singleton, ht]
        omega
      have hbuf : (t.setLine (b ++ [10])).buf =
          (Line.setting lead before after trail s).text ++
            10 :: 0 :: t.buf.drop ((b ++ [10]).length + 1) := by
        rw [htext]
        exact List.append_assoc _ _ _
      obtain ⟨t₁, ht₁, h₁⟩ := configLoop_setting hread hbuf (.inr rfl) cl
      exact ⟨t₁, ht₁.trans (hlen.trans ht), h₁⟩

/-- The last line, without a newline. -/
theorem configLoop_last {l : Line} (hl : l.text.length < bufS) (cl : Cl) :
    configLoop cl t l.text = some (0, l.apply cl) := by
  have h10 : 10 ∉ l.text := fun h => (Line.mem_text h).2 rfl
  cases l with
  | empty => exact configLoop_nil
  | setting lead before after trail s =>
    have hne : (Line.setting lead before after trail s).text ≠ [] := by simp [Line.text]
    have hread := TokenBuffer.fgets_whole (t := t) hne h10
      (List.take_of_length_le (Nat.le_sub_one_of_lt hl))
    rw [List.drop_length] at hread
    obtain ⟨t₁, -, h₁⟩ := configLoop_setting hread rfl (.inl rfl) cl
    rw [h₁]
    exact configLoop_nil

end

theorem configLoop_fileText (newline : Bool) {lines : List Line}
    (hlines : ∀ l ∈ lines, l.text.length < bufS) {t : TokenBuffer} (ht : t.buf.length = bufS)
    (cl : Cl) :
    configLoop cl t (fileText newline lines) = some (0, lines.foldl Line.apply cl) := by
  induction lines generalizing t cl with
  | nil => exact configLoop_nil
  | cons l lines ih =>
    obtain ⟨hl, hlines⟩ := List.forall_mem_cons.mp hlines
    cases lines with
    | nil =>
      cases newline with
      | false =>
        show configLoop cl t (l.text ++ []) = _
        rw [List.append_nil]
        exact configLoop_last hl cl
      | true =>
        obtain ⟨t', -, h⟩ := configLoop_line ht hl cl []
        exact h.trans configLoop_nil
    | cons l' lines =>
      obtain ⟨t', ht', h⟩ := configLoop_line ht hl cl (fileText newline (l' :: lines))
      exact h.trans (ih hlines ht' (l.apply cl))

end AghOs.ProdCons.Config
