import Mathlib.Tactic.Ring
import Pico2wTfm.Tools.Header

/-!
# Results — HeaderParsing

`parse_tinymaix_header` finds an array of bytes in a C header by three patterns, which know nothing of
C: they take the text between the opening brace and the first closing one, and in it every `0x` with
two hexadecimal digits behind it, wherever that stands.

* `header_faithful_iff`: when what it returns is what the array lists.
-/

namespace Encryptor
open Bytes Pattern

/-! ### Finding the array -/

section Search

variable {py : Python} {s₁ s₂ s₃ name digits t : List Char} {c : Char}

/-- The text of a declaration up to the equals sign. -/
def upToEquals (s₁ s₂ name digits s₃ t : List Char) : List Char :=
  constText ++ (s₁ ++ (uint8Text ++ (s₂ ++ (name ++ (['['] ++ (digits ++ ([']'] ++ (s₃ ++
    (['='] ++ t)))))))))

theorem stops_append {p : Char → Bool} {w : List Char} (hw : w ≠ []) (h : ∀ c ∈ w, p c = false) :
    Stops p (w ++ t) := by
  intro c hc
  obtain ⟨a, w, rfl⟩ := List.exists_cons_of_ne_nil hw
  obtain rfl : a = c := Option.some.inj hc
  exact h a List.mem_cons_self

/-- What the parts of a declaration look like to the patterns. -/
structure Looks (py : Python) (s₁ s₂ name digits s₃ : List Char) : Prop where
  space₁ : s₁ ≠ [] ∧ ∀ c ∈ s₁, py.space c = true
  space₂ : s₂ ≠ [] ∧ ∀ c ∈ s₂, py.space c = true
  name : name ≠ [] ∧ ∀ c ∈ name, py.word c = true
  digits : ∀ c ∈ digits, py.digit c = true
  space₃ : ∀ c ∈ s₃, py.space c = true

theorem Python.not_space (hc : c.toNat < 128) (h : isAsciiSpace c = false) : py.space c = false :=
  (py.space_ascii c hc).trans h

theorem Python.not_space_of_word (h : py.word c = true) : py.space c = false := by
  refine Bool.eq_false_iff.mpr fun hs => ?_
  rw [py.space_word c hs] at h
  cases h

theorem Python.not_word (hc : c.toNat < 128) (h : isIdentifierChar c = false) :
    py.word c = false := (py.word_ascii c hc).trans h

theorem Python.not_digit (hc : c.toNat < 128) (h : isDecDigit c = false) :
    py.digit c = false := (py.digit_ascii c hc).trans h

/-- **`arrayPattern` at a declaration.** -/
theorem matchAt_arrayPattern (h : Looks py s₁ s₂ name digits s₃) :
    matchAt (arrayPattern py) (upToEquals s₁ s₂ name digits s₃ t) =
      some [constText, s₁, uint8Text, s₂, name, ['['], digits, [']'], s₃, ['=']] := by
  have hu : ∃ a v, uint8Text = a :: v ∧ py.space a = false :=
    ⟨'u', _, rfl, Python.not_space (by decide) (by decide)⟩
  have he : ∃ a v, ['='] = a :: v ∧ py.space a = false :=
    ⟨'=', _, rfl, Python.not_space (by decide) (by decide)⟩
  have hopen : ∃ a v, ['['] = a :: v ∧ py.word a = false :=
    ⟨'[', _, rfl, Python.not_word (by decide) (by decide)⟩
  have hclose : ∃ a v, [']'] = a :: v ∧ py.digit a = false :=
    ⟨']', _, rfl, Python.not_digit (by decide) (by decide)⟩
  have hname : ∀ c ∈ name, py.space c = false := fun c hc =>
    Python.not_space_of_word (h.name.2 c hc)
  rw [arrayPattern, upToEquals, matchAt_lit_append,
    matchAt_run_lit hu h.space₁.2 (List.length_pos_iff.mpr h.space₁.1),
    matchAt_run_append (refuses_run py.space_word Nat.one_pos) h.space₂.2
      (stops_append h.name.1 hname) (List.length_pos_iff.mpr h.space₂.1),
    matchAt_run_lit hopen h.name.2 (List.length_pos_iff.mpr h.name.1),
    matchAt_run_lit hclose h.digits (Nat.zero_le _), matchAt_run_lit he h.space₃ (Nat.zero_le _)]
  rfl

/-- **`dataPattern` at a declaration**, with a text `u` up to the first closing brace. -/
theorem matchAt_dataPattern (h : Looks py s₁ s₂ name digits s₃) {s₄ u : List Char}
    (h₄ : ∀ c ∈ s₄, py.space c = true) (hu : u ≠ []) (hbrace : '}' ∉ u) :
    matchAt (dataPattern py name)
        (upToEquals s₁ s₂ name digits s₃ (s₄ ++ (['{'] ++ (u ++ (['}'] ++ t))))) =
      some [constText, s₁, uint8Text, s₂, name, ['['], digits, [']'], s₃, ['='], s₄, ['{'], u,
        ['}']] := by
  have hu8 : ∃ a v, uint8Text = a :: v ∧ py.space a = false :=
    ⟨'u', _, rfl, Python.not_space (by decide) (by decide)⟩
  have he : ∃ a v, ['='] = a :: v ∧ py.space a = false :=
    ⟨'=', _, rfl, Python.not_space (by decide) (by decide)⟩
  have ho : ∃ a v, ['{'] = a :: v ∧ py.space a = false :=
    ⟨'{', _, rfl, Python.not_space (by decide) (by decide)⟩
  have hclose : ∃ a v, [']'] = a :: v ∧ py.digit a = false :=
    ⟨']', _, rfl, Python.not_digit (by decide) (by decide)⟩
  have hend : ∃ a v, ['}'] = a :: v ∧ (a != '}') = false := ⟨'}', _, rfl, rfl⟩
  have hname : ∃ a v, name = a :: v ∧ py.space a = false := by
    obtain ⟨a, v, rfl⟩ := List.exists_cons_of_ne_nil h.name.1
    exact ⟨a, v, rfl, Python.not_space_of_word (h.name.2 a List.mem_cons_self)⟩
  have hall : ∀ c ∈ u, (c != '}') = true := fun c hc => bne_iff_ne.mpr fun heq => hbrace (heq ▸ hc)
  rw [dataPattern, upToEquals, matchAt_lit_append,
    matchAt_run_lit hu8 h.space₁.2 (List.length_pos_iff.mpr h.space₁.1),
    matchAt_run_lit hname h.space₂.2 (List.length_pos_iff.mpr h.space₂.1), matchAt_lit_append,
    matchAt_run_lit hclose h.digits (Nat.zero_le _), matchAt_run_lit he h.space₃ (Nat.zero_le _),
    matchAt_run_lit ho h₄ (Nat.zero_le _), matchAt_run_lit hend hall (List.length_pos_iff.mpr hu)]
  rfl

/-- What `dataPattern` matches starts as `arrayPattern` wants it. -/
theorem matchAt_arrayPattern_of_data {s : List Char} {m : List (List Char)} (hn : name ≠ [])
    (hw : ∀ c ∈ name, py.word c = true) (hm : matchAt (dataPattern py name) s = some m) :
    matchAt (arrayPattern py) s ≠ none := by
  obtain ⟨_, _, rfl, hm, -⟩ := matchAt_lit_eq_some hm
  obtain ⟨s₁, _, _, rfl, h₁, n₁, hm, -⟩ := matchAt_run_eq_some hm
  obtain ⟨_, _, rfl, hm, -⟩ := matchAt_lit_eq_some hm
  obtain ⟨s₂, _, _, rfl, h₂, n₂, hm, -⟩ := matchAt_run_eq_some hm
  obtain ⟨_, _, rfl, hm, -⟩ := matchAt_lit_eq_some hm
  obtain ⟨_, _, rfl, hm, -⟩ := matchAt_lit_eq_some hm
  obtain ⟨digits, _, _, rfl, h₃, -, hm, -⟩ := matchAt_run_eq_some hm
  obtain ⟨_, _, rfl, hm, -⟩ := matchAt_lit_eq_some hm
  obtain ⟨s₃, _, _, rfl, h₄, -, hm, -⟩ := matchAt_run_eq_some hm
  obtain ⟨t, _, rfl, hm, -⟩ := matchAt_lit_eq_some hm
  have looks : Looks py s₁ s₂ name digits s₃ :=
    ⟨⟨List.length_pos_iff.mp n₁, h₁⟩, ⟨List.length_pos_iff.mp n₂, h₂⟩, ⟨hn, hw⟩, h₃, h₄⟩
  have key := @matchAt_arrayPattern py s₁ s₂ s₃ name digits t looks
  rw [upToEquals] at key
  rw [key]
  exact Option.some_ne_none _

end Search

/-! ### What is found in it -/

section Hex

variable {s t : List Char} {a b : Char}

theorem matchAt_hex (ha : isHexDigit a = true) (hb : isHexDigit b = true) :
    matchAt hexPattern ('0' :: 'x' :: a :: b :: t) = some [['0', 'x'], [a], [b]] := by
  have hpre : ['0', 'x'] <+: '0' :: 'x' :: a :: b :: t := ⟨a :: b :: t, rfl⟩
  rw [hexPattern, matchAt, if_pos hpre]
  show ((matchAt _ (a :: b :: t)).map _) = _
  rw [matchAt, if_pos ha, matchAt, if_pos hb]
  rfl

/-- What a match of `hexPattern` looks like. -/
theorem matchAt_hex_eq_some {m : List (List Char)} (h : matchAt hexPattern s = some m) :
    ∃ a b t, s = '0' :: 'x' :: a :: b :: t ∧ isHexDigit a = true ∧ isHexDigit b = true := by
  obtain ⟨t, m', rfl, h, -⟩ := matchAt_lit_eq_some h
  cases t with
  | nil => cases h
  | cons a t =>
      rw [matchAt] at h
      by_cases ha : isHexDigit a = true
      swap
      · rw [if_neg ha] at h
        cases h
      rw [if_pos ha] at h
      obtain ⟨m₁, h, -⟩ := Option.map_eq_some_iff.mp h
      cases t with
      | nil => cases h
      | cons b t =>
          rw [matchAt] at h
          by_cases hb : isHexDigit b = true
          · exact ⟨a, b, t, rfl, ha, hb⟩
          · rw [if_neg hb] at h
            cases h

/-- A character that a match of `hexPattern` may hold. -/
def hexy (c : Char) : Bool := c == 'x' || isHexDigit c

/-- **Pieces.**  No match goes over the edge of two pieces, if the characters on one side of it are
not in matches. -/
theorem findAll_hex_append (h : (∀ c ∈ s.getLast?, hexy c = false) ∨ Stops hexy t) :
    findAll hexPattern (s ++ t) = findAll hexPattern s ++ findAll hexPattern t := by
  refine findAll_append fun as hne hs => ?_
  cases hm : matchAt hexPattern (as ++ t) with
  | none =>
      cases hm' : matchAt hexPattern as with
      | none => rfl
      | some m =>
          obtain ⟨a, b, u, rfl, ha, hb⟩ := matchAt_hex_eq_some hm'
          rw [show '0' :: 'x' :: a :: b :: u ++ t = '0' :: 'x' :: a :: b :: (u ++ t) from rfl,
            matchAt_hex ha hb] at hm
          cases hm
  | some m =>
      obtain ⟨a, b, u, heq, ha, hb⟩ := matchAt_hex_eq_some hm
      -- the last character of `as` and the first after it
      have edge : ∀ {l : List Char} {c d : Char} {r : List Char}, as = l ++ [c] → t = d :: r →
          hexy c = true → hexy d = true → False := by
        rintro l c d r rfl rfl hc hd
        rcases h with h | h
        · obtain ⟨pre, rfl⟩ := hs
          have hlast := h c (by rw [← List.append_assoc, List.getLast?_concat]; rfl)
          rw [hc] at hlast
          cases hlast
        · have hfirst := h d rfl
          rw [hd] at hfirst
          cases hfirst
      have hexy_of : ∀ {c}, isHexDigit c = true → hexy c = true := fun hc => by
        rw [hexy, hc, Bool.or_true]
      rcases as with _ | ⟨c₀, _ | ⟨c₁, _ | ⟨c₂, _ | ⟨c₃, as⟩⟩⟩⟩
      · exact absurd rfl hne
      · obtain ⟨rfl, ht⟩ := List.cons.inj heq
        exact (edge (l := []) rfl ht (by decide) (by decide)).elim
      · simp only [List.cons_append, List.nil_append, List.cons.injEq] at heq
        obtain ⟨rfl, rfl, ht⟩ := heq
        exact (edge (l := ['0']) rfl ht (by decide) (hexy_of ha)).elim
      · simp only [List.cons_append, List.nil_append, List.cons.injEq] at heq
        obtain ⟨rfl, rfl, rfl, ht⟩ := heq
        exact (edge (l := ['0', 'x']) rfl ht (hexy_of ha) (hexy_of hb)).elim
      · simp only [List.cons_append, List.cons.injEq] at heq
        obtain ⟨rfl, rfl, rfl, rfl, -⟩ := heq
        rw [matchAt_hex ha hb, ← hm, List.cons_append, List.cons_append, List.cons_append,
          List.cons_append, matchAt_hex ha hb]

theorem hexBytes_append (h : (∀ c ∈ s.getLast?, hexy c = false) ∨ Stops hexy t) :
    hexBytes (s ++ t) = hexBytes s ++ hexBytes t := by
  rw [hexBytes, findAll_hex_append h, List.map_append]
  rfl

theorem hexBytes_of_no_x (h : 'x' ∉ s) : hexBytes s = [] := by
  have none : findAll hexPattern s = [] := findAll_eq_nil fun t _ hs => by
    cases hm : matchAt hexPattern t with
    | none => rfl
    | some m =>
        obtain ⟨a, b, u, rfl, -, -⟩ := matchAt_hex_eq_some hm
        exact absurd (hs.subset (List.mem_cons_of_mem _ List.mem_cons_self)) h
  rw [hexBytes, none]
  rfl

theorem hexBytes_hit (ha : isHexDigit a = true) (hb : isHexDigit b = true) :
    hexBytes ('0' :: 'x' :: a :: b :: t) = BitVec.ofNat 8 (numeral 16 [a, b]) :: hexBytes t := by
  have hit : findAll hexPattern ('0' :: 'x' :: a :: b :: t) =
      [['0', 'x'], [a], [b]] :: findAll hexPattern t := by
    rw [findAll, findAllFrom, matchAt_hex ha hb]
    rfl
  rw [hexBytes, hit]
  rfl

theorem hexBytes_short (h : s.length < 4) : hexBytes s = [] := by
  have none : findAll hexPattern s = [] := findAll_eq_nil fun t _ hs => by
    cases hm : matchAt hexPattern t with
    | none => rfl
    | some m =>
        obtain ⟨a, b, u, rfl, -, -⟩ := matchAt_hex_eq_some hm
        have hlen := hs.length_le
        simp only [List.length_cons] at hlen
        omega
  rw [hexBytes, none]
  rfl

end Hex

/-! ### The pieces of an initialiser -/

section Pieces

variable {t : List Char} {c : Constant} {l : List (Constant × List Char)}

theorem not_x_of_hex {digits : List Char} (h : ∀ c ∈ digits, isHexDigit c = true) :
    'x' ∉ digits := fun hx => absurd (h 'x' hx) (by decide)

theorem hex_of_dec {d : Char} (h : isDecDigit d = true) : isHexDigit d = true := by
  rw [isHexDigit, h]
  rfl

/-- **A constant**: what is found in it. -/
theorem hexBytes_constant (c : Constant) : hexBytes c.spelling.text = c.picked := by
  obtain ⟨spelling, valid, le⟩ := c
  cases spelling with
  | hex upper digits =>
      have hno : 'x' ∉ digits := not_x_of_hex valid.2
      cases upper with
      | true => exact hexBytes_of_no_x (by simpa [Spelling.text] using hno)
      | false =>
          rcases digits with _ | ⟨a, _ | ⟨b, digits⟩⟩
          · exact hexBytes_short (s := ['0', 'x']) (by decide)
          · exact hexBytes_short (s := ['0', 'x', a]) (by show 3 < 4; decide)
          · have ha : isHexDigit a = true := valid.2 a List.mem_cons_self
            have hb : isHexDigit b = true := valid.2 b (List.mem_cons_of_mem a List.mem_cons_self)
            have hr : 'x' ∉ digits := fun hx =>
              hno (List.mem_cons_of_mem a (List.mem_cons_of_mem b hx))
            exact (hexBytes_hit ha hb).trans (congrArg _ (hexBytes_of_no_x hr))
  | dec digits =>
      exact hexBytes_of_no_x (not_x_of_hex fun d hd => hex_of_dec (valid.2.1 d hd))

/-- The characters of a constant. -/
theorem Constant.text_chars (c : Constant) : c.spelling.text ≠ [] ∧
    ∀ d ∈ c.spelling.text, isHexDigit d = true ∨ d = 'x' ∨ d = 'X' := by
  obtain ⟨spelling, valid, le⟩ := c
  cases spelling with
  | hex upper digits =>
      refine ⟨List.cons_ne_nil _ _, fun d hd => ?_⟩
      rcases List.mem_cons.mp hd with rfl | hd
      · exact Or.inl (by decide)
      · rcases List.mem_cons.mp hd with rfl | hd
        · cases upper with
          | true => exact Or.inr (Or.inr rfl)
          | false => exact Or.inr (Or.inl rfl)
        · exact Or.inl (valid.2 d hd)
  | dec digits => exact ⟨valid.1, fun d hd => Or.inl (hex_of_dec (valid.2.1 d hd))⟩

theorem Constant.no_brace (c : Constant) : '}' ∉ c.spelling.text := by
  intro h
  rcases c.text_chars.2 '}' h with h | h | h
  · exact absurd h (by decide)
  · exact absurd h (by decide)
  · exact absurd h (by decide)

theorem not_hexy_of_space {d : Char} (h : isCSpace d = true) : hexy d = false := by
  simp only [isCSpace, Bool.or_eq_true, beq_iff_eq] at h
  refine Bool.eq_false_iff.mpr fun hx => ?_
  rw [hexy, Bool.or_eq_true, beq_iff_eq, isHexDigit_iff] at hx
  rcases h with ((((rfl | rfl) | rfl) | rfl) | h) | h
  · exact absurd hx (by decide)
  · exact absurd hx (by decide)
  · exact absurd hx (by decide)
  · exact absurd hx (by decide)
  · rcases hx with rfl | hx
    · exact absurd h (by decide)
    · omega
  · rcases hx with rfl | hx
    · exact absurd h (by decide)
    · omega

/-- A gap starts with a white space, a backslash or a slash. -/
theorem Gap.starts (h : Gap t) : ∀ d ∈ t.head?, isCSpace d = true ∨ d = '\\' ∨ d = '/' := by
  intro d hd
  cases h with
  | nil => cases hd
  | space hc ht => exact Or.inl (Option.some.inj hd ▸ hc)
  | splice ht => exact Or.inr (Or.inl (Option.some.inj hd).symm)
  | block hs ht => exact Or.inr (Or.inr (Option.some.inj hd).symm)
  | line hs hlast ht => exact Or.inr (Or.inr (Option.some.inj hd).symm)

theorem Gap.stops (h : Gap t) : Stops hexy t := by
  intro d hd
  rcases h.starts d hd with h | rfl | rfl
  · exact not_hexy_of_space h
  · decide
  · decide

theorem getLast?_append_ne {s u : List Char} (hu : u ≠ []) : (s ++ u).getLast? = u.getLast? := by
  rw [List.getLast?_append, List.getLast?_eq_getLast_of_ne_nil hu]
  rfl

/-- A gap ends in no character of a match. -/
theorem Gap.ends (h : Gap t) : ∀ d ∈ t.getLast?, hexy d = false := by
  -- what precedes the rest of the gap ends so
  have step : ∀ {s u : List Char}, (∀ d ∈ s.getLast?, hexy d = false) →
      (∀ d ∈ u.getLast?, hexy d = false) → ∀ d ∈ (s ++ u).getLast?, hexy d = false := by
    intro s u hs hu
    by_cases hne : u = []
    · rw [hne, List.append_nil]
      exact hs
    · rw [getLast?_append_ne hne]
      exact hu
  have one : ∀ {s : List Char} {d : Char}, hexy d = false →
      ∀ e ∈ (s ++ [d]).getLast?, hexy e = false := by
    intro s d hd e he
    rw [List.getLast?_concat] at he
    exact Option.some.inj he ▸ hd
  induction h with
  | nil => exact fun d hd => by cases hd
  | @space c t hc ht ih => exact step (s := [c]) (one (s := []) (not_hexy_of_space hc)) ih
  | @splice t ht ih => exact step (s := ['\\', '\n']) (one (s := ['\\']) (by decide)) ih
  | @block s t hs ht ih =>
      have := step (s := ('/' :: '*' :: s ++ ['*']) ++ ['/']) (one (by decide)) ih
      simpa using this
  | @line s t hs hlast ht ih =>
      have := step (s := ('/' :: '/' :: s) ++ ['\n']) (one (by decide)) ih
      simpa using this

theorem Separator.stops (h : Separator t) : Stops hexy t := by
  obtain ⟨g, g', hg, -, rfl⟩ := h
  intro d hd
  cases g with
  | nil =>
      obtain rfl : ',' = d := Option.some.inj hd
      decide
  | cons e g => exact hg.stops d hd

theorem Separator.ends (h : Separator t) : ∀ d ∈ t.getLast?, hexy d = false := by
  obtain ⟨g, g', -, hg', rfl⟩ := h
  intro d hd
  by_cases hne : g' = []
  · rw [hne, List.getLast?_concat] at hd
    obtain rfl : ',' = d := Option.some.inj hd
    decide
  · rw [show g ++ ',' :: g' = (g ++ [',']) ++ g' by rw [List.append_assoc]; rfl,
      getLast?_append_ne hne] at hd
    exact hg'.ends d hd

/-- What comes before the first closing brace of two pieces. -/
theorem takeWhile_pieces (s u : List Char) : (s ++ u).takeWhile (· != '}') =
    if '}' ∈ s then s.takeWhile (· != '}') else s ++ u.takeWhile (· != '}') := by
  by_cases h : '}' ∈ s
  · rw [if_pos h]
    induction s with
    | nil => cases h
    | cons c s ih =>
        by_cases hc : c = '}'
        · rw [hc]
          rfl
        · have hc' : (c != '}') = true := bne_iff_ne.mpr hc
          rw [List.cons_append, List.takeWhile_cons_of_pos (p := (· != '}')) hc',
            List.takeWhile_cons_of_pos (p := (· != '}')) hc', ih ((List.mem_cons.mp h).resolve_left (Ne.symm hc))]
  · rw [if_neg h]
    exact List.takeWhile_append_of_pos fun c hc => bne_iff_ne.mpr fun heq => h (heq ▸ hc)

theorem takeWhile_of_no_brace (h : '}' ∉ t) : t.takeWhile (· != '}') = t :=
  List.takeWhile_eq_self_iff.mpr fun _ hc => bne_iff_ne.mpr fun heq => h (heq ▸ hc)

theorem stops_takeWhile {p q : Char → Bool} (h : Stops p t) : Stops p (t.takeWhile q) := by
  intro d hd
  cases t with
  | nil => cases hd
  | cons e t =>
      by_cases he : q e = true
      · rw [List.takeWhile_cons_of_pos he] at hd
        exact h d hd
      · rw [List.takeWhile_cons_of_neg he] at hd
        cases hd

/-- A constant and what follows it up to the next. -/
theorem hexBytes_item (ht : Stops hexy t) : hexBytes (c.spelling.text ++ t) =
    c.picked ++ hexBytes t := by
  rw [hexBytes_append (Or.inr ht), hexBytes_constant]

theorem stops_append_of {s u : List Char} {p : Char → Bool} (hs : Stops p s) (hne : s ≠ []) :
    Stops p (s ++ u) := by
  obtain ⟨a, s, rfl⟩ := List.exists_cons_of_ne_nil hne
  exact hs

theorem Separator.ne (h : Separator t) : t ≠ [] := by
  obtain ⟨g, g', -, -, rfl⟩ := h
  exact List.append_ne_nil_of_right_ne_nil g (List.cons_ne_nil _ _)

/-- **The items**, up to the first closing brace. -/
theorem hexBytes_items (h : Items l) :
    hexBytes ((Declaration.bodyOf l).takeWhile (· != '}')) = Declaration.seenOf l := by
  induction h with
  | @last c t ht =>
      have stops : Stops hexy t := ht.elim Gap.stops Separator.stops
      rw [Declaration.bodyOf, List.flatMap_cons, List.flatMap_nil, List.append_nil,
        takeWhile_pieces, if_neg c.no_brace, hexBytes_item (stops_takeWhile stops),
        Declaration.seenOf, Declaration.seenOf]
      split <;> rw [List.append_nil]
  | @more c t l ht hl ih =>
      rw [Declaration.bodyOf, List.flatMap_cons, ← Declaration.bodyOf, List.append_assoc,
        takeWhile_pieces, if_neg c.no_brace, takeWhile_pieces, Declaration.seenOf]
      by_cases hb : '}' ∈ t
      · rw [if_pos hb, if_pos hb, hexBytes_item (stops_takeWhile ht.stops), List.append_nil]
      · rw [if_neg hb, if_neg hb, hexBytes_item (stops_append_of ht.stops ht.ne),
          hexBytes_append (Or.inl ht.ends), ih, takeWhile_of_no_brace hb]

theorem Items.ne (h : Items l) : l ≠ [] := by
  cases h with
  | last ht => exact List.cons_ne_nil _ _
  | more ht hl => exact List.cons_ne_nil _ _

/-- **The body**, up to the first closing brace. -/
theorem hexBytes_body (d : Declaration) :
    hexBytes (d.body.takeWhile (· != '}')) = d.seen := by
  rw [Declaration.body, takeWhile_pieces, Declaration.seen]
  by_cases hb : '}' ∈ d.lead
  · rw [if_pos hb, if_pos hb, List.append_nil]
  · rw [if_neg hb, if_neg hb, hexBytes_append (Or.inl d.gap.ends), hexBytes_items d.list,
      takeWhile_of_no_brace hb]

end Pieces

/-! ### The function -/

/-- The declaration is the first place in the text that looks like one. -/
def First (py : Python) (pre : List Char) (d : Declaration) (rest : List Char) : Prop :=
  ∀ as c bs, pre = as ++ c :: bs → matchAt (arrayPattern py) (c :: bs ++ d.before rest) = none

/-- A length that `int` does not take. -/
def LengthRefused (py : Python) (s : List Char) : Prop :=
  (∃ err, defined py mdlBufLenText s = .error err) ∨ ∃ err, defined py lbufLenText s = .error err

/-- **No model byte is lost**: an error, or the listed values, as many as are declared. -/
def Faithful (d : Declaration) : Except ValueError ParsedHeader → Prop
  | .error _ => True
  | .ok r => r.modelData = d.values ∧ d.LengthIs r.modelData.length

section Parse

variable {py : Python} {pre rest : List Char} {d : Declaration}

theorem ascii_of_cSpace {c : Char} (h : isCSpace c = true) :
    c.toNat < 128 ∧ isAsciiSpace c = true := by
  simp only [isCSpace, Bool.or_eq_true, beq_iff_eq] at h
  rw [isAsciiSpace_iff]
  rcases h with ((((rfl | rfl) | rfl) | rfl) | h) | h
  · decide
  · decide
  · decide
  · decide
  · omega
  · omega

theorem Python.space_of_cSpace {c : Char} (h : isCSpace c = true) : py.space c = true := by
  obtain ⟨hc, hs⟩ := ascii_of_cSpace h
  rw [py.space_ascii c hc, hs]

theorem Python.word_of_identifier {c : Char} (h : isIdentifierChar c = true) :
    py.word c = true := by
  have hc : c.toNat < 128 := by
    rcases isIdentifierChar_iff.mp h with h | h | h | rfl
    · omega
    · omega
    · omega
    · decide
  rw [py.word_ascii c hc, h]

theorem Python.digit_of_dec {c : Char} (h : isDecDigit c = true) : py.digit c = true := by
  have hc : c.toNat < 128 := by
    have := isDecDigit_iff.mp h
    omega
  rw [py.digit_ascii c hc, h]

theorem Declaration.looks (d : Declaration) :
    Looks py d.space₁ d.space₂ d.name d.length d.space₃ := by
  have spaces : ∀ c ∈ d.space₁ ++ d.space₂ ++ d.space₃ ++ d.space₄, py.space c = true :=
    fun c hc => Python.space_of_cSpace (d.spaces c hc)
  simp only [List.forall_mem_append] at spaces
  obtain ⟨⟨⟨h₁, h₂⟩, h₃⟩, -⟩ := spaces
  exact ⟨⟨d.space₁_ne, h₁⟩, ⟨d.space₂_ne, h₂⟩,
    ⟨d.name_ne, fun c hc => Python.word_of_identifier (d.identifier c hc)⟩,
    fun c hc => Python.digit_of_dec (d.digits.1 c hc), h₃⟩

/-- The text after an opening brace, cut at the first closing one. -/
theorem cut_at_brace (s rest : List Char) :
    ∃ t, s ++ '}' :: rest = s.takeWhile (· != '}') ++ (['}'] ++ t) := by
  induction s with
  | nil => exact ⟨rest, rfl⟩
  | cons c s ih =>
      by_cases hc : c = '}'
      · rw [hc]
        exact ⟨s ++ '}' :: rest, rfl⟩
      · obtain ⟨t, ht⟩ := ih
        have hc' : (c != '}') = true := bne_iff_ne.mpr hc
        rw [List.takeWhile_cons_of_pos (p := (· != '}')) hc', List.cons_append, ht]
        exact ⟨t, rfl⟩

/-- Something stands between the braces. -/
theorem Declaration.body_ne (d : Declaration) : d.body.takeWhile (· != '}') ≠ [] := by
  have start : ∃ c t, d.body = c :: t ∧ c ≠ '}' := by
    cases hlead : d.lead with
    | cons c t =>
        refine ⟨c, t ++ Declaration.bodyOf d.items, by rw [Declaration.body, hlead]; rfl, ?_⟩
        rintro rfl
        rcases d.gap.starts '}' (by rw [hlead]; rfl) with h | h | h
        · exact absurd h (by decide)
        · exact absurd h (by decide)
        · exact absurd h (by decide)
    | nil =>
        obtain ⟨a, l, hl⟩ := List.exists_cons_of_ne_nil d.list.ne
        obtain ⟨c, t, ht⟩ := List.exists_cons_of_ne_nil a.1.text_chars.1
        refine ⟨c, t ++ a.2 ++ Declaration.bodyOf l, ?_, ?_⟩
        · rw [Declaration.body, hlead, hl, Declaration.bodyOf, List.flatMap_cons, ht]
          rfl
        · rintro rfl
          exact a.1.no_brace (by rw [ht]; exact List.mem_cons_self)
  obtain ⟨c, t, hbody, hc⟩ := start
  rw [hbody, List.takeWhile_cons_of_pos (p := (· != '}')) (bne_iff_ne.mpr hc)]
  exact List.cons_ne_nil _ _

theorem no_brace_takeWhile (s : List Char) : '}' ∉ s.takeWhile (· != '}') := fun h =>
  bne_iff_ne.mp (List.mem_takeWhile_imp (p := (· != '}')) h) rfl

/-- The first pattern finds the name of the declaration. -/
theorem search_arrayPattern (h : First py pre d rest) :
    search (arrayPattern py) (pre ++ d.before rest) =
      some [constText, d.space₁, uint8Text, d.space₂, d.name, ['['], d.length, [']'], d.space₃,
        ['=']] := by
  rw [search_append h]
  exact search_of_matchAt (matchAt_arrayPattern d.looks)

/-- The second pattern finds the declaration, too, and takes what is before the first closing
brace. -/
theorem search_dataPattern (h : First py pre d rest) :
    search (dataPattern py d.name) (pre ++ d.before rest) =
      some [constText, d.space₁, uint8Text, d.space₂, d.name, ['['], d.length, [']'], d.space₃,
        ['='], d.space₄, ['{'], d.body.takeWhile (· != '}'), ['}']] := by
  have none : ∀ as c bs, pre = as ++ c :: bs →
      matchAt (dataPattern py d.name) (c :: bs ++ d.before rest) = none := by
    intro as c bs hpre
    cases hm : matchAt (dataPattern py d.name) (c :: bs ++ d.before rest) with
    | none => rfl
    | some m =>
        exact absurd (h as c bs hpre)
          (matchAt_arrayPattern_of_data d.name_ne d.looks.name.2 hm)
  obtain ⟨t, ht⟩ := cut_at_brace d.body rest
  have hspace₄ : ∀ c ∈ d.space₄, py.space c = true := fun c hc =>
    Python.space_of_cSpace (d.spaces c (List.mem_append_right _ hc))
  rw [search_append none]
  refine search_of_matchAt ?_
  rw [Declaration.before, ht]
  exact matchAt_dataPattern d.looks hspace₄ d.body_ne (no_brace_takeWhile d.body)

/-- **What the function returns** for a declaration. -/
theorem parse_first (h : First py pre d rest) :
    parseTinymaixHeader py (pre ++ d.before rest) = (do
      let mdlBufLen ← defined py mdlBufLenText (pre ++ d.before rest)
      let lbufLen ← defined py lbufLenText (pre ++ d.before rest)
      if d.seen = [] then .error .noHex else .ok ⟨d.seen, d.name, mdlBufLen, lbufLen⟩) := by
  rw [parseTinymaixHeader, search_arrayPattern h]
  simp only [parseData, List.getD_cons_succ, List.getD_cons_zero, search_dataPattern h,
    hexBytes_body]

end Parse

/-! ### Constants that are read right -/

section Constants

variable {c : Constant} {l : List (Constant × List Char)} {base n : Nat} {digits : List Char}

/-- The constant is written in a way that `hexPattern` finds something in it. -/
def Constant.Seen (c : Constant) : Prop :=
  ∃ digits, c.spelling = .hex false digits ∧ 2 ≤ digits.length

theorem foldl_numeral : digits.foldl (fun n c => base * n + digitOf c) n =
    n * base ^ digits.length + numeral base digits := by
  induction digits generalizing n with
  | nil => rw [List.foldl_nil, List.length_nil, Nat.pow_zero, Nat.mul_one]; rfl
  | cons c digits ih =>
      have first : numeral base (c :: digits) =
          (base * 0 + digitOf c) * base ^ digits.length + numeral base digits := ih
      rw [List.foldl_cons, ih, first, List.length_cons, Nat.pow_succ]
      ring

/-- The value of a constant from its first two digits. -/
theorem numeral_two (a b : Char) (digits : List Char) : numeral 16 (a :: b :: digits) =
    numeral 16 [a, b] * 16 ^ digits.length + numeral 16 digits :=
  @foldl_numeral 16 (numeral 16 [a, b]) digits

theorem digitOf_lt {a : Char} (h : isHexDigit a = true) : digitOf a < 16 := by
  have key := isHexDigit_iff.mp h
  rw [digitOf]
  by_cases hd : isDecDigit a = true
  · rw [if_pos hd]
    have := isDecDigit_iff.mp hd
    omega
  rw [if_neg hd]
  by_cases hl : ('a' ≤ a && a ≤ 'f') = true
  · rw [if_pos hl]
    rw [Bool.and_eq_true, decide_eq_true_eq, decide_eq_true_eq] at hl
    have h₁ : 97 ≤ a.toNat := hl.1
    have h₂ : a.toNat ≤ 102 := hl.2
    omega
  · rw [if_neg hl]
    rw [Bool.and_eq_true, decide_eq_true_eq, decide_eq_true_eq] at hl
    have h₁ : ¬(97 ≤ a.toNat ∧ a.toNat ≤ 102) := hl
    have h₂ := isDecDigit_iff (c := a)
    omega

theorem numeral_pair_lt {a b : Char} (ha : isHexDigit a = true) (hb : isHexDigit b = true) :
    numeral 16 [a, b] < 256 := by
  have h₁ := digitOf_lt ha
  have h₂ := digitOf_lt hb
  show 16 * (16 * 0 + digitOf a) + digitOf b < 256
  omega

/-- **A constant is read right** exactly when it is plain. -/
theorem picked_eq_byte : c.picked = [c.byte] ↔ c.Plain := by
  obtain ⟨spelling, valid, le⟩ := c
  cases spelling with
  | dec digits =>
      constructor
      · intro h
        cases h
      · rintro ⟨digits', h, -⟩
        cases h
  | hex upper digits =>
      cases upper with
      | true =>
          constructor
          · intro h
            cases h
          · rintro ⟨digits', h, -⟩
            cases h
      | false =>
          have plain : Constant.Plain ⟨.hex false digits, valid, le⟩ ↔
              digits.length = 2 ∨ 2 ≤ digits.length ∧ numeral 16 digits = 0 := by
            constructor
            · rintro ⟨digits', h, hlen⟩
              obtain rfl : digits = digits' := by injection h
              exact hlen
            · exact fun h => ⟨digits, rfl, h⟩
          rw [plain]
          rcases digits with _ | ⟨a, _ | ⟨b, digits⟩⟩
          · exact ⟨fun h => (by cases h), fun h => (by simp at h)⟩
          · exact ⟨fun h => (by cases h), fun h => (by simp at h)⟩
          have ha : isHexDigit a = true := valid.2 a List.mem_cons_self
          have hb : isHexDigit b = true := valid.2 b (List.mem_cons_of_mem a List.mem_cons_self)
          have hlt := numeral_pair_lt ha hb
          have hle : numeral 16 (a :: b :: digits) ≤ 255 := le
          have heq : ([BitVec.ofNat 8 (numeral 16 [a, b])] : List Byte) =
              [BitVec.ofNat 8 (numeral 16 (a :: b :: digits))] ↔
              numeral 16 [a, b] = numeral 16 (a :: b :: digits) := by
            rw [List.singleton_inj, ← BitVec.toNat_inj, BitVec.toNat_ofNat, BitVec.toNat_ofNat,
              Nat.mod_eq_of_lt hlt, Nat.mod_eq_of_lt (Nat.lt_succ_of_le hle)]
          refine heq.trans ?_
          rw [numeral_two a b digits]
          simp only [List.length_cons]
          cases digits with
          | nil => simp [numeral]
          | cons e digits =>
              have hpow : 16 ≤ 16 ^ (e :: digits).length := by
                rw [List.length_cons, Nat.pow_succ]
                exact Nat.le_mul_of_pos_left 16 (Nat.pow_pos (by decide))
              constructor
              · intro h
                right
                refine ⟨by simp, ?_⟩
                rw [← h]
                -- a prefix that is the whole value is zero
                have hmul : numeral 16 [a, b] * 16 ≤ numeral 16 [a, b] * 16 ^ (e :: digits).length :=
                  Nat.mul_le_mul_left _ hpow
                omega
              · rintro (h | ⟨-, h⟩)
                · simp at h
                · have hzero := Nat.eq_zero_of_add_eq_zero_right h
                  rcases Nat.mul_eq_zero.mp hzero with hz | hz
                  · omega
                  · exact absurd hz (Nat.pos_iff_ne_zero.mp (Nat.pow_pos (by decide)))

theorem picked_eq_nil : c.picked = [] ↔ ¬c.Seen := by
  obtain ⟨spelling, valid, le⟩ := c
  cases spelling with
  | dec digits => exact ⟨fun _ ⟨_, h, _⟩ => (by cases h), fun _ => rfl⟩
  | hex upper digits =>
      cases upper with
      | true => exact ⟨fun _ ⟨_, h, _⟩ => (by cases h), fun _ => rfl⟩
      | false =>
          rcases digits with _ | ⟨a, _ | ⟨b, digits⟩⟩
          · refine ⟨fun _ h => ?_, fun _ => rfl⟩
            obtain ⟨digits, h, hlen⟩ := h
            injection h with _ h
            subst h
            exact absurd hlen (by decide)
          · refine ⟨fun _ h => ?_, fun _ => rfl⟩
            obtain ⟨digits, h, hlen⟩ := h
            injection h with _ h
            subst h
            exact absurd hlen (by simp)
          · refine ⟨fun h => (by cases h), fun h => absurd ⟨_, rfl, ?_⟩ h⟩
            simp

theorem length_picked_le : c.picked.length ≤ 1 := by
  rw [Constant.picked]
  split
  · exact Nat.le_refl 1
  · exact Nat.zero_le 1

/-- The constants one after the other are read right exactly when each is. -/
theorem flatMap_picked_eq : l.flatMap (fun a => a.1.picked) = l.map (fun a => a.1.byte) ↔
    ∀ a ∈ l, a.1.Plain := by
  have short : ∀ l : List (Constant × List Char),
      (l.flatMap fun a => a.1.picked).length ≤ l.length := by
    intro l
    induction l with
    | nil => exact Nat.le_refl 0
    | cons a l ih =>
        have := @length_picked_le a.1
        rw [List.flatMap_cons, List.length_append, List.length_cons]
        omega
  induction l with
  | nil => exact ⟨fun _ a ha => absurd ha List.not_mem_nil, fun _ => rfl⟩
  | cons a l ih =>
      rw [List.flatMap_cons, List.map_cons, List.forall_mem_cons, ← picked_eq_byte]
      constructor
      · intro h
        have hlen := congrArg List.length h
        have hshort := short l
        have hone := @length_picked_le a.1
        rw [List.length_append, List.length_cons, List.length_map] at hlen
        obtain ⟨b, hb⟩ := List.length_eq_one_iff.mp (show a.1.picked.length = 1 by omega)
        rw [hb] at h ⊢
        obtain ⟨rfl, hrest⟩ := List.cons.inj h
        exact ⟨rfl, ih.mp hrest⟩
      · rintro ⟨h, hl⟩
        rw [h, ih.mpr hl]
        rfl

/-- Without anything in the comments, what is seen is in the constants. -/
theorem seen_of_quiet {d : Declaration} (h : d.Quiet) :
    d.seen = d.items.flatMap fun a => a.1.picked := by
  have items : ∀ l : List (Constant × List Char), (∀ a ∈ l, '}' ∉ a.2 ∧ hexBytes a.2 = []) →
      Declaration.seenOf l = l.flatMap fun a => a.1.picked := by
    intro l hl
    induction l with
    | nil => rfl
    | cons a l ih =>
        obtain ⟨⟨hb, hx⟩, hl⟩ := List.forall_mem_cons.mp hl
        rw [Declaration.seenOf, if_neg hb, takeWhile_of_no_brace hb, hx, List.nil_append, ih hl,
          List.flatMap_cons]
  obtain ⟨⟨hb, hx⟩, hl⟩ := h
  rw [Declaration.seen, if_neg hb, takeWhile_of_no_brace hb, hx, List.nil_append, items _ hl]

end Constants

/-- **Header parsing.**  For a text whose first array of bytes is `d`, no byte is lost exactly when a
length is refused, or nothing in the initialiser looks like `0x` with two digits, or what does so up
to the first closing brace is what is listed, and the declared length is its number.  If no comment
holds a closing brace or anything that looks so, that is to say: no constant is seen, or every
constant is plain and the declared length is their number. -/
theorem header_faithful_iff {py : Python} {pre rest : List Char} {d : Declaration}
    (h : First py pre d rest) :
    (Faithful d (parseTinymaixHeader py (pre ++ d.before rest)) ↔
      LengthRefused py (pre ++ d.before rest) ∨ d.seen = [] ∨
        (d.seen = d.values ∧ d.LengthIs d.seen.length)) ∧
    (d.Quiet → (d.seen = [] ↔ ∀ a ∈ d.items, ¬a.1.Seen) ∧
      (d.seen = d.values ↔ ∀ a ∈ d.items, a.1.Plain)) := by
  constructor
  · rw [parse_first h, LengthRefused]
    cases hm : defined py mdlBufLenText (pre ++ d.before rest) with
    | error err => exact ⟨fun _ => Or.inl (Or.inl ⟨err, rfl⟩), fun _ => trivial⟩
    | ok m =>
        cases hl : defined py lbufLenText (pre ++ d.before rest) with
        | error err => exact ⟨fun _ => Or.inl (Or.inr ⟨err, rfl⟩), fun _ => trivial⟩
        | ok n =>
            show Faithful d (if d.seen = [] then _ else _) ↔ _
            by_cases hs : d.seen = []
            · rw [if_pos hs]
              exact ⟨fun _ => Or.inr (Or.inl hs), fun _ => trivial⟩
            · rw [if_neg hs]
              constructor
              · exact fun hf => Or.inr (Or.inr hf)
              · rintro ((⟨err, he⟩ | ⟨err, he⟩) | hnil | hf)
                · cases he
                · cases he
                · exact absurd hnil hs
                · exact hf
  · intro hq
    rw [seen_of_quiet hq, List.flatMap_eq_nil_iff]
    exact ⟨forall₂_congr fun a _ => picked_eq_nil, flatMap_picked_eq⟩

/-- `const uint8_t m[]={a,b}`. -/
def pairOf (a b : Constant) : Declaration where
  space₁ := [' ']
  space₂ := [' ']
  name := ['m']
  length := []
  space₃ := []
  space₄ := []
  lead := []
  items := [(a, [',']), (b, [])]
  space₁_ne := List.cons_ne_nil _ _
  space₂_ne := List.cons_ne_nil _ _
  name_ne := List.cons_ne_nil _ _
  spaces := List.all_eq_true.mp rfl
  identifier := List.all_eq_true.mp rfl
  digits := ⟨List.all_eq_true.mp rfl, by decide⟩
  gap := .nil
  list := .more ⟨[], [], .nil, .nil, rfl⟩ (.last (Or.inl .nil))

def hexOne : Constant := ⟨.hex false ['0', '1'], by decide, by decide⟩
def hexTwo : Constant := ⟨.hex false ['0', '2'], by decide, by decide⟩
def decOne : Constant := ⟨.dec ['1'], by decide, by decide⟩

/-- A declaration at the start of a text is the first. -/
theorem first_nil {py : Python} {d : Declaration} {rest : List Char} : First py [] d rest :=
  fun _ _ _ h => absurd h (List.nil_eq_append_iff.not.mpr fun h => List.cons_ne_nil _ _ h.2)

/-- Two constants of two digits each. -/
theorem header_faithful_iff_pair :
    Faithful (pairOf hexOne hexTwo)
      (parseTinymaixHeader asciiPython ([] ++ (pairOf hexOne hexTwo).before [';'])) :=
  (header_faithful_iff first_nil).1.mpr (Or.inr (Or.inr ⟨by decide, fun h => absurd rfl h⟩))

/-- **A byte is lost.**  The first element of `{1,0x02}` is dropped without an error. -/
theorem decimal_lost :
    (pairOf decOne hexTwo).before [';'] = "const uint8_t m[]=\x7b1,0x02\x7d;".toList ∧
    parseTinymaixHeader asciiPython ((pairOf decOne hexTwo).before [';']) =
      .ok ⟨[2], ['m'], 0, 0⟩ ∧
    (pairOf decOne hexTwo).values = [1, 2] ∧
    ¬Faithful (pairOf decOne hexTwo)
      (parseTinymaixHeader asciiPython ((pairOf decOne hexTwo).before [';'])) := by
  have parsed : parseTinymaixHeader asciiPython ((pairOf decOne hexTwo).before [';']) =
      .ok ⟨[2], ['m'], 0, 0⟩ := by decide +kernel
  refine ⟨by decide +kernel, parsed, by decide, ?_⟩
  rw [parsed]
  exact fun h => absurd h.1 (by decide)

end Encryptor
