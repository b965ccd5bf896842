import AghOs.ProdCons.Config

/-!
# Any configuration file

`__cl_read_config` (cw09/zad1/src/cl.c:17-69) on a file whose lines need not be
well-formed. `strtok` returns `NULL` for a line without a `=`, for one with nothing
behind the `=`, and `trim` does for a name or a value of spaces; the results go on
to `trim`, `strcmp`, `atoi` and `strcpy` unchecked. What is behind a line of the
buffer, and what `strtok` keeps from the lines before, do not matter.

* `turn_eq_none`, `turn_entry`: what the loop body does with any line.
* `read_config_iff`: the files that are read to an end.
-/

namespace AghOs.ProdCons.Config

/-! ## What a line says -/

/-- The string at the start of a line that has been read. -/
def content (line : List UInt8) : List UInt8 := line.takeWhile (· ≠ 0)

/-- The first word of a string, to which `trim` cuts it down. -/
def word (s : List UInt8) : List UInt8 := (s.dropWhile (· = 32)).takeWhile (· ≠ 32)

/-- A name and a value, which are not empty, on the two sides of the first `=` behind
    the ones that the line may start with. -/
structure Entry (l name value : List UInt8) : Prop where
  text : ∃ n, l = List.replicate n 61 ++ (name ++ 61 :: value)
  equals_sign : 61 ∉ name
  name : word name ≠ []
  value : value ≠ []

/-- The lines of a file that is read to its end, or to a line whose key is not
    recognised. -/
inductive Readable : List (List UInt8) → Prop
  | nil : Readable []
  | empty {l : List UInt8} {ls : List (List UInt8)} :
      content l = [] → Readable ls → Readable (l :: ls)
  | setting {l name value : List UInt8} {ls : List (List UInt8)} {k : Key} :
      Entry (content l) name value → word name = k.text → word value ≠ [] →
      (k = .file → (word value).length < 256) → Readable ls → Readable (l :: ls)
  | unrecognised {l name value : List UInt8} {ls : List (List UInt8)} :
      Entry (content l) name value → (∀ k : Key, word name ≠ k.text) → Readable (l :: ls)

theorem Entry.ne_nil {l name value : List UInt8} (h : Entry l name value) : l ≠ [] := by
  obtain ⟨⟨n, rfl⟩, -, -, -⟩ := h
  simp

theorem exists_word (s : List UInt8) : ∃ n rest, s = spaces n ++ (word s ++ rest) ∧
    (word s = [] → rest = []) ∧ (rest = [] ∨ ∃ rest', rest = 32 :: rest') := by
  refine ⟨(s.takeWhile (· = 32)).length, (s.dropWhile (· = 32)).dropWhile (· ≠ 32), ?_, ?_, ?_⟩
  · have hspaces : spaces (s.takeWhile (· = 32)).length = s.takeWhile (· = 32) :=
      (List.eq_replicate_of_mem fun b hb => by simpa using List.mem_takeWhile_imp hb).symm
    rw [hspaces, word, List.takeWhile_append_dropWhile, List.takeWhile_append_dropWhile]
  · intro hw
    cases hd : s.dropWhile (· = 32) with
    | nil => rfl
    | cons a as =>
      have ha := dropWhile_head hd
      rw [word, hd, List.takeWhile_cons_of_pos (by simpa using ha)] at hw
      cases hw
  · cases hd : (s.dropWhile (· = 32)).dropWhile (· ≠ 32) with
    | nil => exact .inl rfl
    | cons a as =>
      obtain rfl : a = 32 := by simpa using dropWhile_head hd
      exact .inr ⟨as, rfl⟩

theorem mem_word {s : List UInt8} {b : UInt8} (h : b ∈ word s) : b ∈ s ∧ b ≠ 32 :=
  ⟨(List.dropWhile_suffix _).subset ((List.takeWhile_prefix _).subset h),
    by simpa using List.mem_takeWhile_imp h⟩

/-- Every line starts with `=`s, and what is behind them has no `=`, or a first
    one. -/
theorem line_cases (l : List UInt8) : ∃ n name, 61 ∉ name ∧
    (l = List.replicate n 61 ++ name ∨
      name ≠ [] ∧ ∃ value, l = List.replicate n 61 ++ (name ++ 61 :: value)) := by
  induction l with
  | nil => exact ⟨0, [], List.not_mem_nil, .inl rfl⟩
  | cons a l ih =>
    by_cases ha : a = 61
    · obtain ⟨n, name, hname, rfl | ⟨hne, value, rfl⟩⟩ := ih
      · exact ⟨n + 1, name, hname, .inl (by rw [ha]; rfl)⟩
      · exact ⟨n + 1, name, hname, .inr ⟨hne, value, by rw [ha]; rfl⟩⟩
    · by_cases hl : 61 ∈ l
      · obtain ⟨name, value, rfl, hname⟩ := List.eq_append_cons_of_mem hl
        refine ⟨0, a :: name, ?_, .inr ⟨List.cons_ne_nil _ _, value, rfl⟩⟩
        simpa [Ne.symm ha] using hname
      · exact ⟨0, a :: l, by simpa [Ne.symm ha] using hl, .inl rfl⟩

/-! ## A line -/

section

variable {t : TokenBuffer} {pre skip name value s z : List UInt8} {c : UInt8}

theorem turn_null_name {t₁ : TokenBuffer} (h : t.strtok (some 0) [61] = some (none, t₁)) (cl : Cl) :
    turn cl t = none := by
  unfold turn
  simp only [Option.bind_eq_bind, h, Option.bind_some]
  cases t₁.strtok none [10] <;> rfl

theorem turn_null_value {n : Option ℕ} {t₁ t₂ : TokenBuffer}
    (h₁ : t.strtok (some 0) [61] = some (n, t₁)) (h₂ : t₁.strtok none [10] = some (none, t₂))
    (cl : Cl) : turn cl t = none := by
  unfold turn
  simp only [Option.bind_eq_bind, h₁, h₂, Option.bind_some]
  cases trim t₂ n <;> rfl

/-- The first call of `strtok` skips the `=`s at the start of the line. -/
theorem strtok_start (h : t.buf = skip ++ z) (hskip : ∀ b ∈ skip, b = 61) :
    t.strtok (some 0) [61] = t.strtok (some skip.length) [61] := by
  have h' : t.buf = [] ++ (skip ++ z) := h
  exact TokenBuffer.strtok_skip (some 0) [61] h' rfl (by simpa using hskip)

/-- A line without a `=` behind the first ones. -/
theorem turn_no_sign (h : t.buf = skip ++ (s ++ 0 :: z)) (hskip : ∀ b ∈ skip, b = 61)
    (hs : ∀ b ∈ s, b ∉ [61] ∧ b ≠ 0) (cl : Cl) : turn cl t = none := by
  have hstart := strtok_start h hskip
  by_cases hne : s = []
  · subst hne
    exact turn_null_name (hstart.trans (TokenBuffer.strtok_end _ h rfl (by decide))) cl
  · have hbuf : skip ++ (s ++ 0 :: z) = (skip ++ s) ++ 0 :: z := (List.append_assoc _ _ _).symm
    exact turn_null_value (hstart.trans (TokenBuffer.strtok_token _ _ h rfl hne hs (.inl rfl)))
      (TokenBuffer.strtok_end none hbuf (by simp) (by decide)) cl

/-- The name in front of the first `=`. -/
theorem strtok_name (h : t.buf = skip ++ (name ++ 61 :: z)) (hskip : ∀ b ∈ skip, b = 61)
    (hne : name ≠ []) (hs : ∀ b ∈ name, b ∉ [61] ∧ b ≠ 0) :
    t.strtok (some 0) [61] = some (some skip.length,
      ⟨skip ++ (name ++ 0 :: z), some (skip ++ name ++ [0]).length⟩) := by
  have htok := TokenBuffer.strtok_token (some skip.length) [61] h rfl hne hs
    (.inr List.mem_cons_self)
  rw [strtok_start h hskip, htok]
  simp [Nat.add_assoc]

/-- What `trim` leaves of a string, if anything. -/
def trimmed (s : List UInt8) : Option (List UInt8) := if word s = [] then none else some (word s)

/-- `trim` of any string; it may write into the string, and not behind it. -/
theorem trim_string (h : t.buf = pre ++ (s ++ 0 :: z)) (hs : 0 ∉ s) :
    ∃ q s' t', trim t (some pre.length) = some (q, t') ∧ s'.length = s.length ∧
      t'.buf = pre ++ (s' ++ 0 :: z) ∧
      ∀ (u : TokenBuffer) (z' : List UInt8), u.buf = pre ++ (s' ++ 0 :: z') →
        u.string q = trimmed s := by
  obtain ⟨n, rest, hsplit, hall, hrest⟩ := exists_word s
  by_cases hw : word s = []
  · -- nothing but spaces
    rw [hw, hall hw, List.append_nil, List.append_nil] at hsplit
    rw [hsplit] at h
    have hbuf : t.buf = (pre ++ spaces n) ++ 0 :: z := by rw [h, List.append_assoc]
    refine ⟨none, s, _, (trim_spaces h (by decide)).trans
      (TokenBuffer.strtok_end _ hbuf rfl (by decide)), rfl, ?_, fun u z' _ => ?_⟩
    · rw [hsplit]
      exact h
    · rw [trimmed, if_pos hw]
      rfl
  · obtain ⟨a, w, ha⟩ := List.exists_cons_of_ne_nil hw
    have hchars : ∀ b ∈ word s, b ∉ [32] ∧ b ≠ 0 := fun b hb =>
      ⟨by simpa using (mem_word hb).2, ne_of_mem_of_not_mem (mem_word hb).1 hs⟩
    have ha32 : a ≠ 32 := (mem_word (ha ▸ List.mem_cons_self)).2
    -- the byte behind the word is overwritten
    obtain ⟨c, r, rest', hc, htail, hlen, hzero, hfree⟩ : ∃ c r rest', (c = 0 ∨ c ∈ [32]) ∧
        rest ++ 0 :: z = c :: r ∧ rest'.length = rest.length ∧ 0 :: r = rest' ++ 0 :: z ∧
        ∀ z' : List UInt8, ∃ z'', rest' ++ 0 :: z' = 0 :: z'' := by
      obtain rfl | ⟨r, rfl⟩ := hrest
      · exact ⟨0, z, [], .inl rfl, rfl, rfl, rfl, fun z' => ⟨z', rfl⟩⟩
      · exact ⟨32, r ++ 0 :: z, 0 :: r, .inr List.mem_cons_self, rfl, rfl, rfl,
          fun z' => ⟨r ++ 0 :: z', rfl⟩⟩
    have hbuf : t.buf = (pre ++ spaces n) ++ (word s ++ c :: r) := by
      rw [h, ← htail]
      conv_lhs => rw [hsplit]
      simp only [List.append_assoc]
    have hbuf' : t.buf = pre ++ (spaces n ++ a :: (w ++ c :: r)) := by
      rw [hbuf, ha, List.append_assoc]
      rfl
    refine ⟨_, spaces n ++ (word s ++ rest'), _, (trim_spaces hbuf' ha32).trans
      (TokenBuffer.strtok_token _ _ hbuf rfl hw hchars hc), ?_, ?_, fun u z' hu => ?_⟩
    · conv_rhs => rw [hsplit]
      simp only [List.length_append, hlen]
    · show pre ++ spaces n ++ (word s ++ 0 :: r) = _
      rw [hzero]
      simp only [List.append_assoc]
    · obtain ⟨z'', hz⟩ := hfree z'
      have hu' : u.buf = (pre ++ spaces n) ++ (word s ++ 0 :: z'') := by
        rw [hu, ← hz]
        simp only [List.append_assoc]
      rw [trimmed, if_neg hw]
      exact TokenBuffer.string_append hu' fun h0 => (hchars 0 h0).2 rfl

/-- A line with nothing behind the `=`. -/
theorem turn_no_value (h : t.buf = skip ++ (name ++ 61 :: z)) (hskip : ∀ b ∈ skip, b = 61)
    (hname : name ≠ []) (hn : ∀ b ∈ name, b ∉ [61] ∧ b ≠ 0)
    (hz : (∃ z', z = 0 :: z') ∨ ∃ z', z = 10 :: 0 :: z') (cl : Cl) : turn cl t = none := by
  have h₁ := strtok_name h hskip hname hn
  obtain ⟨z', rfl⟩ | ⟨z', rfl⟩ := hz
  · have hbuf : skip ++ (name ++ 0 :: 0 :: z') = (skip ++ name ++ [0]) ++ 0 :: z' := by simp
    exact turn_null_value h₁ (TokenBuffer.strtok_end none hbuf rfl (by decide)) cl
  · -- `strtok` skips the newline
    have hbuf : skip ++ (name ++ 0 :: 10 :: 0 :: z') =
        (skip ++ name ++ [0]) ++ ([10] ++ 0 :: z') := by
      simp
    have hbuf' : skip ++ (name ++ 0 :: 10 :: 0 :: z') =
        (skip ++ name ++ [0] ++ [10]) ++ 0 :: z' := by
      simp
    have h₂ := TokenBuffer.strtok_skip (t := ⟨_, some (skip ++ name ++ [0]).length⟩) none [10] hbuf
      rfl fun _ => id
    exact turn_null_value h₁ (h₂.trans (TokenBuffer.strtok_end _ hbuf' rfl (by decide))) cl

/-- `name` and `value`, trimmed, go to the comparisons. -/
theorem turn_sign (h : t.buf = skip ++ (name ++ 61 :: (value ++ c :: z)))
    (hskip : ∀ b ∈ skip, b = 61) (hname : name ≠ []) (hn : ∀ b ∈ name, b ∉ [61] ∧ b ≠ 0)
    (hvalue : value ≠ []) (hv : ∀ b ∈ value, b ∉ [10] ∧ b ≠ 0) (hc : c = 0 ∨ c ∈ [10]) (cl : Cl) :
    ∃ t', turn cl t = (trimmed name).bind fun n =>
      (assign cl n (trimmed value)).map fun r => (r.1, r.2, t') := by
  have h₁ := strtok_name h hskip hname hn
  have hbuf₁ : skip ++ (name ++ 0 :: (value ++ c :: z)) =
      (skip ++ name ++ [0]) ++ (value ++ c :: z) := by
    simp
  have h₂ := TokenBuffer.strtok_token (t := ⟨skip ++ (name ++ 0 :: (value ++ c :: z)),
    some (skip ++ name ++ [0]).length⟩) none [10] hbuf₁ rfl hvalue hv hc
  have hbuf₂ : (skip ++ name ++ [0]) ++ (value ++ 0 :: z) =
      skip ++ (name ++ 0 :: (value ++ 0 :: z)) := by
    simp
  rw [hbuf₂] at h₂
  have hn0 : (0 : UInt8) ∉ name := fun h0 => (hn 0 h0).2 rfl
  have hv0 : (0 : UInt8) ∉ value := fun h0 => (hv 0 h0).2 rfl
  obtain ⟨q, name', t₃, h₃, hlen, hbuf₃, hq⟩ := trim_string (t := ⟨skip ++ (name ++
    0 :: (value ++ 0 :: z)), some ((skip ++ name ++ [0]).length + value.length +
      if c = 0 then 0 else 1)⟩) rfl hn0
  have hbuf₃' : t₃.buf = (skip ++ name' ++ [0]) ++ (value ++ 0 :: z) := by
    rw [hbuf₃]
    simp
  obtain ⟨q', value', t₄, h₄, -, hbuf₄, hq'⟩ := trim_string hbuf₃' hv0
  have hpos : (skip ++ name ++ [0]).length = (skip ++ name' ++ [0]).length := by
    simp [hlen]
  rw [← hpos] at h₄
  have hname₄ : t₄.string q = trimmed name := hq t₄ (value' ++ 0 :: z) (by rw [hbuf₄]; simp)
  have hvalue₄ : t₄.string q' = trimmed value := hq' t₄ z hbuf₄
  refine ⟨t₄, ?_⟩
  unfold turn
  simp only [Option.bind_eq_bind, h₁, h₂, Option.bind_some, h₃, h₄, hname₄, hvalue₄]
  exact congrArg _ (funext fun n => (Option.map_eq_bind ..).symm)

/-- How the string of a line ends in the buffer. -/
def Ends (t : TokenBuffer) (s : List UInt8) : Prop :=
  ∃ z, t.buf = s ++ 0 :: z ∨ t.buf = s ++ 10 :: 0 :: z

theorem replicate_chars (n : ℕ) : ∀ b ∈ List.replicate n (61 : UInt8), b = 61 :=
  fun _ hb => List.eq_of_mem_replicate hb

theorem Ends.split {n : ℕ} (h : Ends t (List.replicate n 61 ++ (name ++ 61 :: value))) :
    ∃ c z, (c = 0 ∨ c ∈ [10]) ∧
      t.buf = List.replicate n 61 ++ (name ++ 61 :: (value ++ c :: z)) := by
  obtain ⟨z, hbuf | hbuf⟩ := h
  · exact ⟨0, z, .inl rfl, by rw [hbuf]; simp⟩
  · exact ⟨10, 0 :: z, .inr List.mem_cons_self, by rw [hbuf]; simp⟩

theorem entry_name {n : ℕ} (hname : 61 ∉ name)
    (h0 : 0 ∉ List.replicate n 61 ++ (name ++ 61 :: value)) : ∀ b ∈ name, b ∉ [61] ∧ b ≠ 0 :=
  fun _ hb => ⟨by simpa using ne_of_mem_of_not_mem hb hname,
    ne_of_mem_of_not_mem (List.mem_append_right _ (List.mem_append_left _ hb)) h0⟩

theorem entry_value {n : ℕ} (h10 : 10 ∉ List.replicate n 61 ++ (name ++ 61 :: value))
    (h0 : 0 ∉ List.replicate n 61 ++ (name ++ 61 :: value)) : ∀ b ∈ value, b ∉ [10] ∧ b ≠ 0 :=
  fun _ hb =>
    have hmem := List.mem_append_right (List.replicate n 61)
      (List.mem_append_right name (List.mem_cons_of_mem 61 hb))
    ⟨by simpa using ne_of_mem_of_not_mem hmem h10, ne_of_mem_of_not_mem hmem h0⟩

/-- A line that is not an entry makes the body pass a null pointer on. -/
theorem turn_eq_none (hends : Ends t s) (h0 : 0 ∉ s) (h10 : 10 ∉ s)
    (hno : ∀ name value, ¬Entry s name value) (cl : Cl) : turn cl t = none := by
  obtain ⟨n, name, hname, rfl | ⟨hne, value, rfl⟩⟩ := line_cases s
  · -- no `=`: the name is all of the line, with the newline
    have hchars : ∀ b ∈ name, b ∉ [61] ∧ b ≠ 0 := fun b hb =>
      ⟨by simpa using ne_of_mem_of_not_mem hb hname,
        ne_of_mem_of_not_mem (List.mem_append_right _ hb) h0⟩
    obtain ⟨z, hbuf | hbuf⟩ := hends
    · rw [List.append_assoc] at hbuf
      exact turn_no_sign hbuf (replicate_chars n) hchars cl
    · have hbuf' : t.buf = List.replicate n 61 ++ ((name ++ [10]) ++ 0 :: z) := by
        rw [hbuf]
        simp
      refine turn_no_sign hbuf' (replicate_chars n) (fun b hb => ?_) cl
      obtain hb | hb := List.mem_append.mp hb
      · exact hchars b hb
      · obtain rfl := List.mem_singleton.mp hb
        decide
  · have hn := entry_name hname h0
    by_cases hvalue : value = []
    · -- nothing behind the `=`
      subst hvalue
      obtain ⟨z, hz⟩ : ∃ z, t.buf = List.replicate n 61 ++ (name ++ 61 :: z) ∧
          ((∃ z', z = 0 :: z') ∨ ∃ z', z = 10 :: 0 :: z') := by
        obtain ⟨z, hbuf | hbuf⟩ := hends
        · exact ⟨0 :: z, by rw [hbuf]; simp, .inl ⟨z, rfl⟩⟩
        · exact ⟨10 :: 0 :: z, by rw [hbuf]; simp, .inr ⟨z, rfl⟩⟩
      exact turn_no_value hz.1 (replicate_chars n) hne hn hz.2 cl
    · -- nothing but spaces in front of it
      have hv := entry_value h10 h0
      have hword : word name = [] := by
        by_contra hw
        exact hno name value ⟨⟨n, rfl⟩, hname, hw, hvalue⟩
      obtain ⟨c, z, hc, hbuf⟩ := hends.split
      obtain ⟨t', ht'⟩ := turn_sign hbuf (replicate_chars n) hne hn hvalue hv hc cl
      rw [ht', trimmed, if_pos hword]
      rfl

/-- An entry is compared with the keys. -/
theorem turn_entry (hends : Ends t s) (h0 : 0 ∉ s) (h10 : 10 ∉ s) (he : Entry s name value)
    (cl : Cl) : ∃ t', turn cl t =
      (assign cl (word name) (trimmed value)).map fun r => (r.1, r.2, t') := by
  obtain ⟨⟨n, rfl⟩, hname, hword, hvalue⟩ := he
  have hne : name ≠ [] := by
    rintro rfl
    exact hword rfl
  obtain ⟨c, z, hc, hbuf⟩ := hends.split
  obtain ⟨t', ht'⟩ := turn_sign hbuf (replicate_chars n) hne (entry_name hname h0) hvalue
    (entry_value h10 h0) hc cl
  refine ⟨t', ht'.trans ?_⟩
  rw [trimmed, if_neg hword]
  rfl

theorem trim_length {t' : TokenBuffer} {p q : Option ℕ} (h : trim t p = some (q, t')) :
    t'.buf.length = t.buf.length := by
  obtain ⟨_, -, h⟩ := Option.bind_eq_some_iff.mp h
  exact TokenBuffer.strtok_length h

theorem turn_length {t' : TokenBuffer} {cl cl' : Cl} {r : ℤ} (h : turn cl t = some (r, cl', t')) :
    t'.buf.length = t.buf.length := by
  unfold turn at h
  simp only [Option.bind_eq_bind, Option.bind_eq_some_iff] at h
  obtain ⟨⟨n, t₁⟩, h₁, ⟨v, t₂⟩, h₂, ⟨n', t₃⟩, h₃, ⟨v', t₄⟩, h₄, _, -, ⟨_, _⟩, -, h⟩ := h
  cases h
  rw [trim_length h₄, trim_length h₃, TokenBuffer.strtok_length h₂, TokenBuffer.strtok_length h₁]

end

/-! ## The comparisons -/

section

variable {cl : Cl} {k : Key} {name w : List UInt8} {v : Option (List UInt8)}

theorem assign_key (cl : Cl) (hw : k = .file → w.length < 256) :
    ∃ cl', assign cl k.text (some w) = some (0, cl') := by
  cases k with
  | number k => cases k <;> exact ⟨_, rfl⟩
  | file => exact ⟨_, dif_pos (hw rfl)⟩
  | length => exact ⟨_, rfl⟩

/-- The value of a key that is recognised is used. -/
theorem assign_key_some {r : ℤ × Cl} (h : assign cl k.text v = some r) :
    ∃ w, v = some w ∧ (k = .file → w.length < 256) := by
  cases v with
  | none =>
    cases k with
    | number k => cases k <;> cases h
    | file => cases h
    | length => cases h
  | some w =>
    refine ⟨w, rfl, ?_⟩
    rintro rfl
    by_contra hw
    have hnone : assign cl Key.file.text (some w) = none := dif_neg hw
    rw [hnone] at h
    cases h

theorem assign_unrecognised (cl : Cl) (h : ∀ k : Key, name ≠ k.text) :
    assign cl name v = some (-1, cl) := by
  simp only [assign, if_neg (h _)]

/-- The comparisons of an entry with a key that is recognised. -/
theorem assign_setting (cl : Cl) {name value : List UInt8} (hk : word name = k.text)
    (hne : word value ≠ []) (hfile : k = .file → (word value).length < 256) :
    ∃ cl', assign cl (word name) (trimmed value) = some (0, cl') := by
  rw [hk, trimmed, if_neg hne]
  exact assign_key cl hfile

theorem trimmed_some {s w : List UInt8} (h : trimmed s = some w) : word s ≠ [] ∧ w = word s := by
  unfold trimmed at h
  split at h <;> cases h
  exact ⟨‹_›, rfl⟩

end

/-! ## The file -/

section

variable {cl : Cl} {t : TokenBuffer} {stream rest l : List UInt8} {ls : List (List UInt8)}

/-- `l` is the next line of the stream; the last one may have no newline. -/
def NextLine (stream l rest : List UInt8) : Prop :=
  stream = l ++ 10 :: rest ∨ stream = l ∧ l ≠ [] ∧ rest = []

theorem content_ends {z : List UInt8} (h : t.buf = l ++ 0 :: z ∨ t.buf = l ++ 10 :: 0 :: z) :
    Ends t (content l) := by
  have hsplit : l = content l ++ l.dropWhile (· ≠ 0) := List.takeWhile_append_dropWhile.symm
  cases hd : l.dropWhile (· ≠ 0) with
  | nil =>
    rw [hd, List.append_nil] at hsplit
    exact ⟨z, hsplit ▸ h⟩
  | cons a as =>
    obtain rfl : a = 0 := by simpa using dropWhile_head hd
    rw [hd] at hsplit
    rw [hsplit] at h
    obtain h | h := h
    · exact ⟨as ++ 0 :: z, .inl (by rw [h]; simp)⟩
    · exact ⟨as ++ 10 :: 0 :: z, .inl (by rw [h]; simp)⟩

/-- `fgets` reads the line, and leaves its newline if the line fills the buffer. -/
theorem fgets_line (ht : t.buf.length = bufS) (hl : l.length < bufS) (h10 : 10 ∉ l)
    (hnext : NextLine stream l rest) : ∃ t' rest', t.fgets bufS stream = some (t', rest') ∧
      t'.buf.length = bufS ∧ Ends t' (content l) ∧ (rest' = rest ∨ rest' = 10 :: rest) := by
  have hlen : (t.setLine l).buf.length = bufS :=
    (TokenBuffer.setLine_length (by rw [ht]; exact hl)).trans ht
  obtain rfl | ⟨rfl, hne, rfl⟩ := hnext
  · by_cases hfull : l.length + 1 = bufS
    · have htake : (l ++ 10 :: rest).take (bufS - 1) = l := by
        rw [← hfull, Nat.add_sub_cancel, List.take_left]
      have hne : l ≠ [] := by
        rintro rfl
        cases hfull
      have hread := TokenBuffer.fgets_whole (t := t) hne h10 htake
      rw [List.drop_left] at hread
      exact ⟨_, _, hread, hlen, content_ends (.inl rfl), .inr rfl⟩
    · have hread : t.fgets bufS (l ++ 10 :: rest) = some (t.setLine (l ++ [10]), rest) :=
        TokenBuffer.fgets_newline h10 (by omega)
      have hlen' : (t.setLine (l ++ [10])).buf.length = t.buf.length := by
        refine TokenBuffer.setLine_length ?_
        rw [List.length_append, List.length_singleton, ht]
        omega
      exact ⟨_, _, hread, hlen'.trans ht, content_ends (.inr (List.append_assoc _ _ _)), .inl rfl⟩
  · have hread := TokenBuffer.fgets_whole (t := t) hne h10
      (List.take_of_length_le (Nat.le_sub_one_of_lt hl))
    rw [List.drop_length] at hread
    exact ⟨_, _, hread, hlen, content_ends (.inl rfl), .inl rfl⟩

/-- A newline that was left is an empty line. -/
theorem configLoop_rest {rest' : List UInt8} (ht : t.buf.length = bufS)
    (h : rest' = rest ∨ rest' = 10 :: rest) (cl : Cl) :
    ∃ t', t'.buf.length = bufS ∧ configLoop cl t rest' = configLoop cl t' rest := by
  obtain rfl | rfl := h
  · exact ⟨t, ht, rfl⟩
  · exact configLoop_newline ht cl rest

theorem content_chars (h10 : 10 ∉ l) : 0 ∉ content l ∧ 10 ∉ content l :=
  ⟨fun h => by simpa using List.mem_takeWhile_imp h,
    fun h => h10 ((List.takeWhile_prefix _).subset h)⟩

/-- The loop behind its body. -/
def afterTurn (stream : List UInt8) : Option (ℤ × Cl × TokenBuffer) → Option (ℤ × Cl)
  | none => none
  | some (r, cl, t) => if r = 0 then configLoop cl t stream else some (r, cl)

/-- One turn of the loop. -/
theorem configLoop_turn (ht : t.buf.length = bufS) (hl : l.length < bufS) (h10 : 10 ∉ l)
    (hnext : NextLine stream l rest) (cl : Cl) : ∃ t' rest', t'.buf.length = bufS ∧
      Ends t' (content l) ∧ (rest' = rest ∨ rest' = 10 :: rest) ∧
      configLoop cl t stream =
        if content l = [] then configLoop cl t' rest' else afterTurn rest' (turn cl t') := by
  obtain ⟨t', rest', hread, hlen, hends, hrest⟩ := fgets_line ht hl h10 hnext
  refine ⟨t', rest', hlen, hends, hrest, ?_⟩
  obtain ⟨h0, h10⟩ := content_chars h10
  obtain ⟨z, hbuf⟩ := hends
  cases hc : content l with
  | nil =>
    rw [hc] at hbuf
    obtain hbuf | hbuf := hbuf
    · rw [configLoop_eq hread (by rw [hbuf]; rfl), if_pos (.inl rfl), if_pos rfl]
    · rw [configLoop_eq hread (by rw [hbuf]; rfl), if_pos (.inr rfl), if_pos rfl]
  | cons a s =>
    rw [hc] at hbuf h0 h10
    have hhead : t'.buf[0]? = some a := by
      obtain hbuf | hbuf := hbuf <;> rw [hbuf] <;> rfl
    have ha : ¬(a = 0 ∨ a = 10) := not_or.mpr
      ⟨(List.ne_of_not_mem_cons h0).symm, (List.ne_of_not_mem_cons h10).symm⟩
    rw [configLoop_eq hread hhead, if_neg ha, if_neg (List.cons_ne_nil a s)]
    rfl

/-- `__cl_read_config` returns `0` or `-1`. -/
def Returns (o : Option (ℤ × Cl)) : Prop := ∃ r cl, o = some (r, cl) ∧ (r = 0 ∨ r = -1)

section

variable {t₁ : TokenBuffer} (hlen : t₁.buf.length = bufS) (hends : Ends t₁ (content l))
  (h10 : 10 ∉ l)
include hlen hends h10

/-- The body on a line that is an entry. -/
theorem turn_assign {name value : List UInt8} (he : Entry (content l) name value)
    {r : ℤ} {cl' : Cl} (h : assign cl (word name) (trimmed value) = some (r, cl')) :
    ∃ t', t'.buf.length = bufS ∧ turn cl t₁ = some (r, cl', t') := by
  obtain ⟨h0, h10⟩ := content_chars h10
  obtain ⟨t', ht'⟩ := turn_entry hends h0 h10 he cl
  rw [h] at ht'
  exact ⟨t', (turn_length ht').trans hlen, ht'⟩

/-- If the loop comes to an end, the line was readable. -/
theorem readable_of_returns
    (ih : ∀ (cl : Cl) (t : TokenBuffer), t.buf.length = bufS →
      Returns (configLoop cl t rest) → Readable ls)
    (h : Returns (afterTurn rest (turn cl t₁))) : Readable (l :: ls) := by
  obtain ⟨h0, h10'⟩ := content_chars h10
  by_cases he : ∃ name value, Entry (content l) name value
  · obtain ⟨name, value, he⟩ := he
    by_cases hk : ∃ k : Key, word name = k.text
    · obtain ⟨k, hk⟩ := hk
      cases hassign : assign cl (word name) (trimmed value) with
      | none =>
        obtain ⟨t', ht'⟩ := turn_entry hends h0 h10' he cl
        rw [ht', hassign] at h
        obtain ⟨_, _, h, -⟩ := h
        cases h
      | some r =>
        obtain ⟨w, hw, hfile⟩ := assign_key_some (hk ▸ hassign)
        obtain ⟨hword, rfl⟩ := trimmed_some hw
        obtain ⟨cl', hzero⟩ := assign_setting cl hk hword hfile
        obtain ⟨t', hlen', ht'⟩ := turn_assign hlen hends h10 he hzero
        rw [ht'] at h
        exact .setting he hk hword hfile (ih cl' t' hlen' h)
    · exact .unrecognised he (not_exists.mp hk)
  · rw [turn_eq_none hends h0 h10' (fun name value hno => he ⟨name, value, hno⟩) cl] at h
    obtain ⟨_, _, h, -⟩ := h
    cases h

end

/-- A line is read, and then the others are. -/
theorem returns_cons (ht : t.buf.length = bufS) (hl : l.length < bufS) (h10 : 10 ∉ l)
    (hnext : NextLine stream l rest)
    (ih : ∀ (cl : Cl) (t : TokenBuffer), t.buf.length = bufS →
      (Returns (configLoop cl t rest) ↔ Readable ls)) (cl : Cl) :
    Returns (configLoop cl t stream) ↔ Readable (l :: ls) := by
  obtain ⟨t₁, rest', hlen, hends, hrest, hloop⟩ := configLoop_turn ht hl h10 hnext cl
  have ih' : ∀ (cl : Cl) (t : TokenBuffer), t.buf.length = bufS →
      (Returns (configLoop cl t rest') ↔ Readable ls) := by
    intro cl t ht
    obtain ⟨t', ht', heq⟩ := configLoop_rest ht hrest cl
    rw [heq]
    exact ih cl t' ht'
  rw [hloop]
  constructor
  · intro h
    by_cases hempty : content l = []
    · rw [if_pos hempty] at h
      exact .empty hempty ((ih' cl t₁ hlen).mp h)
    · rw [if_neg hempty] at h
      exact readable_of_returns hlen hends h10 (fun cl t ht => (ih' cl t ht).mp) h
  · intro h
    cases h with
    | empty hempty hls =>
      rw [if_pos hempty]
      exact (ih' cl t₁ hlen).mpr hls
    | setting he hk hne hfile hls =>
      obtain ⟨cl', hzero⟩ := assign_setting cl hk hne hfile
      obtain ⟨t', hlen', ht'⟩ := turn_assign hlen hends h10 he hzero
      rw [if_neg he.ne_nil, ht']
      exact (ih' cl' t' hlen').mpr hls
    | unrecognised he hk =>
      obtain ⟨t', hlen', ht'⟩ := turn_assign hlen hends h10 he (assign_unrecognised cl hk)
      rw [if_neg he.ne_nil, ht']
      exact ⟨-1, cl, rfl, .inr rfl⟩

theorem configLoop_iff (ht : t.buf.length = bufS)
    (hlines : ∀ l ∈ stream.splitOn 10, l.length < bufS) (cl : Cl) :
    Returns (configLoop cl t stream) ↔ Readable (stream.splitOn 10) := by
  induction hn : stream.length using Nat.strong_induction_on generalizing stream t cl with
  | _ n ih =>
    subst hn
    by_cases h10 : 10 ∈ stream
    · obtain ⟨l, rest, rfl, hl⟩ := List.eq_append_cons_of_mem h10
      rw [List.splitOn_append_cons_self_of_not_mem hl] at hlines ⊢
      obtain ⟨hlen, hlines⟩ := List.forall_mem_cons.mp hlines
      refine returns_cons ht hlen hl (.inl rfl) (fun cl t ht => ih _ ?_ ht hlines cl rfl) cl
      rw [List.length_append, List.length_cons]
      omega
    · rw [List.splitOn_eq_singleton h10] at hlines ⊢
      have hreturns : ∀ (cl : Cl) (t : TokenBuffer), Returns (configLoop cl t []) := fun cl t => by
        rw [configLoop_nil]
        exact ⟨0, cl, rfl, .inl rfl⟩
      by_cases hnil : stream = []
      · subst hnil
        exact ⟨fun _ => .empty rfl .nil, fun _ => hreturns cl t⟩
      · exact returns_cons ht (hlines stream List.mem_cons_self) h10 (.inr ⟨rfl, hnil, rfl⟩)
          (fun cl t _ => ⟨fun _ => .nil, fun _ => hreturns cl t⟩) cl

end

/-- **Reading a configuration file.** For any file with lines shorter than the
    buffer, and whatever the buffer holds before. -/
theorem read_config_iff (cl : Cl) {t : TokenBuffer} {stream : List UInt8}
    (ht : t.buf.length = bufS) (hlines : ∀ l ∈ stream.splitOn 10, l.length < bufS) :
    (∃ r cl', clReadConfig cl t stream = some (r, cl') ∧ (r = 0 ∨ r = -1)) ↔
      Readable (stream.splitOn 10) :=
  configLoop_iff ht hlines cl.defaults

/-- A structure and a buffer into which nothing has been read. -/
def unread : Cl × TokenBuffer :=
  (⟨0, 0, 0, List.replicate 256 1, 0, .gt, 0, 0, 0, List.length_replicate⟩,
    ⟨List.replicate bufS 1, none⟩)

/-- The file with the line `sleep=1`. -/
theorem read_config_iff_sleep :
    ∃ r cl', clReadConfig unread.1 unread.2 [115, 108, 101, 101, 112, 61, 49, 10] = some (r, cl') ∧
      (r = 0 ∨ r = -1) := by
  refine (read_config_iff unread.1 List.length_replicate (by decide)).mpr ?_
  have he : Entry [115, 108, 101, 101, 112, 61, 49] [115, 108, 101, 101, 112] [49] :=
    ⟨⟨0, rfl⟩, by decide, by decide, by decide⟩
  exact .setting (k := .number .sleep) he rfl (by decide) nofun (.empty rfl .nil)

/-- The file with the line `abc`. -/
theorem no_sign_null : ¬∀ stream : List UInt8, (∀ l ∈ stream.splitOn 10, l.length < bufS) →
    ∃ r cl', clReadConfig unread.1 unread.2 stream = some (r, cl') ∧ (r = 0 ∨ r = -1) := by
  intro h
  have hread := h [97, 98, 99, 10] (by decide)
  have hentry : ∀ name value, ¬Entry [97, 98, 99] name value := by
    rintro name value ⟨⟨n, htext⟩, -, -, -⟩
    have hmem : (61 : UInt8) ∈ [97, 98, 99] := by
      rw [htext]
      simp
    exact absurd hmem (by decide)
  cases (configLoop_iff List.length_replicate (by decide) unread.1.defaults).mp hread with
  | empty hempty _ => cases hempty
  | setting he => exact hentry _ _ he
  | unrecognised he => exact hentry _ _ he

end AghOs.ProdCons.Config
