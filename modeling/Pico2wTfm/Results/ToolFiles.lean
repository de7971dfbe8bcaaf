import Mathlib.Data.List.Nodup
import Mathlib.Data.List.Pairwise
import Pico2wTfm.Tools.Files

/-!
# Results — ToolFiles

The encryption tool writes up to four files and derives the names of three of them: every `.bin` of
the output path becomes `.key`, or `.h`, and every `.h` of that becomes `.c`, wherever in the path it
stands.  Nothing compares the names with each other or with the input.

* `files_kept_iff`: when no file is written over by another.
-/

namespace Encryptor
open Bytes Replace

/-! ### The directory of a path -/

section Directory

variable {old new p : Path}

/-- A path without a slash, or one that is cut at its last slash. -/
theorem cut_at_slash (p : Path) :
    '/' ∉ p ∨ ∃ a b, p = a ++ '/' :: b ∧ '/' ∉ b := by
  induction p with
  | nil => exact Or.inl List.not_mem_nil
  | cons c p ih =>
      rcases ih with h | ⟨a, b, rfl, hb⟩
      · by_cases hc : c = '/'
        · exact Or.inr ⟨[], p, by rw [hc]; rfl, h⟩
        · exact Or.inl fun hm => (List.mem_cons.mp hm).elim (fun he => hc he.symm) h
      · exact Or.inr ⟨c :: a, b, rfl, hb⟩

theorem rdropWhile_slash {a b : Path} (hb : '/' ∉ b) :
    (a ++ '/' :: b).rdropWhile (· != '/') = a ++ ['/'] := by
  have hall : ∀ c ∈ b.reverse, (c != '/') = true := fun c hc =>
    bne_iff_ne.mpr fun h => hb (h ▸ List.mem_reverse.mp hc)
  rw [List.rdropWhile, List.reverse_append, List.reverse_cons, List.append_assoc,
    List.dropWhile_append_of_pos hall]
  show (List.dropWhile _ ('/' :: a.reverse)).reverse = _
  rw [List.dropWhile_cons_of_neg (by decide), List.reverse_cons, List.reverse_reverse]

theorem rdropWhile_no_slash (h : '/' ∉ p) : p.rdropWhile (· != '/') = [] :=
  List.rdropWhile_eq_nil_iff.mpr fun _ hc => bne_iff_ne.mpr fun he => h (he ▸ hc)

/-- A path ends in slashes after something that does not. -/
theorem cut_slashes (a : Path) : ∃ d k, a = d ++ List.replicate k '/' ∧ '/' ∉ d.getLast? := by
  induction a using List.reverseRecOn with
  | nil => exact ⟨[], 0, rfl, by simp⟩
  | append_singleton a c ih =>
      by_cases hc : c = '/'
      · obtain ⟨d, k, rfl, hd⟩ := ih
        refine ⟨d, k + 1, ?_, hd⟩
        rw [hc, List.append_assoc, List.replicate_succ']
      · refine ⟨a ++ [c], 0, (List.append_nil _).symm, ?_⟩
        rw [List.getLast?_concat]
        exact fun h => hc (Option.some.inj h)

/-- The directory of a path that is cut at its last slash. -/
theorem dirname_cut {d b : Path} {k : Nat} (hd : '/' ∉ d.getLast?) (hb : '/' ∉ b) :
    dirname (d ++ List.replicate k '/' ++ '/' :: b) =
      if d = [] then List.replicate (k + 1) '/' else d := by
  have head : (d ++ List.replicate k '/' ++ '/' :: b).rdropWhile (· != '/') =
      d ++ List.replicate (k + 1) '/' := by
    rw [rdropWhile_slash hb, List.append_assoc, List.replicate_succ']
  rw [dirname, head]
  by_cases hnil : d = []
  · rw [hnil, List.nil_append, if_pos rfl]
    exact if_pos (by simp)
  · have last : ∃ e c, d = e ++ [c] ∧ c ≠ '/' := by
      obtain ⟨e, c, rfl⟩ := (List.eq_nil_or_concat' d).resolve_left hnil
      refine ⟨e, c, rfl, fun hc => hd ?_⟩
      rw [List.getLast?_concat, hc]
      rfl
    obtain ⟨e, c, rfl, hc⟩ := last
    rw [if_neg hnil]
    have notAll : ¬(e ++ [c] ++ List.replicate (k + 1) '/').all (· == '/') = true := by
      intro hall
      have := List.all_eq_true.mp hall c
        (List.mem_append_left _ (List.mem_append_right _ List.mem_cons_self))
      exact hc (beq_iff_eq.mp this)
    rw [if_neg notAll, List.rdropWhile, List.reverse_append, List.reverse_replicate,
      List.dropWhile_append_of_pos fun x hx => beq_iff_eq.mpr (List.eq_of_mem_replicate hx),
      List.reverse_append]
    show (List.dropWhile _ (c :: e.reverse)).reverse = _
    rw [List.dropWhile_cons_of_neg (by simpa using hc), List.reverse_cons, List.reverse_reverse]

/-- **Replacing goes through directories**, if it does not know slashes. -/
theorem dirname_replaceAll (hold : old ≠ []) (hnew : new ≠ []) (ho : '/' ∉ old) (hn : '/' ∉ new)
    (p : Path) : dirname (replaceAll old new p) = replaceAll old new (dirname p) := by
  have none : ∀ {b : Path}, '/' ∉ b → '/' ∉ replaceAll old new b := fun hb hm =>
    (mem_replaceAll hm).elim hb hn
  have empty : ∀ {b : Path}, '/' ∉ b → dirname b = [] := fun hb => by
    rw [dirname, rdropWhile_no_slash hb]
    rfl
  have slashes : ∀ k, replaceAll old new (List.replicate k '/') = List.replicate k '/' := by
    intro k
    induction k with
    | zero => rfl
    | succ k ih =>
        have h := @replaceAll_sep _ _ _ new _ hold ho [] (List.replicate k '/')
        rw [ih] at h
        exact h
  have after : ∀ (d : Path) (k : Nat), replaceAll old new (d ++ List.replicate k '/') =
      replaceAll old new d ++ List.replicate k '/' := by
    intro d k
    cases k with
    | zero => rw [List.replicate_zero, List.append_nil, List.append_nil]
    | succ k => rw [List.replicate_succ, replaceAll_sep hold ho, slashes]
  rcases cut_at_slash p with h | ⟨a, b, rfl, hb⟩
  · rw [empty h, empty (none h)]
    rfl
  · obtain ⟨d, k, rfl, hd⟩ := cut_slashes a
    have hd' : '/' ∉ (replaceAll old new d).getLast? := fun h =>
      (getLast?_replaceAll hnew h).elim hd hn
    rw [replaceAll_sep hold ho, after, dirname_cut hd hb, dirname_cut hd' (none hb)]
    by_cases hnil : d = []
    · rw [if_pos hnil, hnil]
      exact (slashes (k + 1)).symm
    · obtain ⟨c, d, rfl⟩ := List.exists_cons_of_ne_nil hnil
      have hne : replaceAll old new (c :: d) ≠ [] := replaceFrom_ne hnew
      rw [if_neg hnil, if_neg hne]

end Directory

/-! ### The names of a run -/

namespace Args

/-- The key file that a run saves. -/
def savedKeyPath (a : Args) : Option Path := savedKey (some a.keyPath) a.generateKey a.usePsaKey

def headerPath (a : Args) : Path := replaceAll binExt hExt a.output
def sourcePath (a : Args) : Path := replaceAll hExt cExt a.headerPath

/-- What a run writes after its package, in this order. -/
def written (a : Args) : List Path :=
  a.savedKeyPath.toList ++ if a.generateCHeader then [a.headerPath, a.sourcePath] else []

/-- The key file has the default name. -/
def DefaultKey (a : Args) : Prop := a.outputKey.getD [] = []

/-- **What the names have to be like.**  A derived name differs from what it comes from if there is a
`.bin` to replace; directories stay if there is nothing to replace in them. -/
structure Named (a : Args) : Prop where
  /-- The key does not go over the input, nor over the package. -/
  key_input : ∀ k ∈ a.savedKeyPath, k ≠ a.input
  default_key : a.savedKeyPath ≠ none → a.DefaultKey → binExt <:+: a.output
  given_key : ∀ k ∈ a.savedKeyPath, ¬a.DefaultKey →
    k ≠ a.output ∧ (a.generateCHeader = true → k ≠ a.headerPath ∧ k ≠ a.sourcePath)
  /-- The header and the source have names of their own, next to the package. -/
  header : a.generateCHeader = true → binExt <:+: a.output ∧ ¬binExt <:+: dirname a.output ∧
    ¬hExt <:+: dirname a.output
  /-- They do not go over the input. -/
  header_input : a.generateCHeader = true → a.input ≠ a.headerPath ∧ a.input ≠ a.sourcePath

end Args

section Names

variable {a : Args} {k : Path}

theorem binExt_ne_nil : binExt ≠ [] := List.cons_ne_nil _ _
theorem hExt_ne_nil : hExt ≠ [] := List.cons_ne_nil _ _
theorem cExt_ne_nil : cExt ≠ [] := List.cons_ne_nil _ _

theorem length_headerPath :
    a.headerPath.length + 2 * countAll binExt a.output = a.output.length := by
  have h := @length_replaceAll _ _ _ hExt binExt_ne_nil a.output
  rw [show binExt.length = 4 from rfl, show hExt.length = 2 from rfl] at h
  rw [Args.headerPath]
  omega

theorem length_sourcePath : a.sourcePath.length = a.headerPath.length := by
  have h := @length_replaceAll _ _ _ cExt hExt_ne_nil a.headerPath
  exact Nat.add_right_cancel h

/-- With a `.bin` to replace, the header has a shorter name than the package. -/
theorem headerPath_lt (h : binExt <:+: a.output) : a.headerPath.length < a.output.length := by
  have hlen := length_headerPath (a := a)
  have hpos : countAll binExt a.output ≠ 0 := fun hz =>
    (countAll_eq_zero binExt_ne_nil).mp hz h
  omega

theorem headerPath_eq_output : a.headerPath = a.output ↔ ¬binExt <:+: a.output :=
  replaceAll_eq_self binExt_ne_nil (by decide)

/-- There is a `.h` to replace in a header that is not the package. -/
theorem sourcePath_ne_headerPath (h : binExt <:+: a.output) : a.sourcePath ≠ a.headerPath := by
  intro he
  have hno := (replaceAll_eq_self hExt_ne_nil (by decide)).mp he
  exact hno (infix_replaceAll binExt_ne_nil h)

theorem dirname_headerPath : dirname a.headerPath = dirname a.output ↔
    ¬binExt <:+: dirname a.output := by
  rw [Args.headerPath, dirname_replaceAll binExt_ne_nil hExt_ne_nil (by decide) (by decide)]
  exact replaceAll_eq_self binExt_ne_nil (by decide)

theorem dirname_sourcePath (h : dirname a.headerPath = dirname a.output) :
    dirname a.sourcePath = dirname a.output ↔ ¬hExt <:+: dirname a.output := by
  rw [Args.sourcePath, dirname_replaceAll hExt_ne_nil cExt_ne_nil (by decide) (by decide), h]
  exact replaceAll_eq_self hExt_ne_nil (by decide)

/-- A key that is saved is saved under the name of the call. -/
theorem mem_savedKeyPath (h : k ∈ a.savedKeyPath) : k = a.outputKeyPath := by
  have hk : k = a.keyPath ∧ (a.generateKey || a.usePsaKey) = true := by
    rw [Args.savedKeyPath] at h
    cases hp : a.keyPath with
    | nil =>
        rw [hp] at h
        cases h
    | cons c cs =>
        rw [hp] at h
        simp only [savedKey] at h
        by_cases hs : (a.generateKey || a.usePsaKey) = true
        · rw [if_pos hs] at h
          exact ⟨(Option.some.inj h).symm, hs⟩
        · rw [if_neg hs] at h
          cases h
  rw [hk.1, Args.keyPath]
  cases ho : a.keyOption with
  | keyFile path =>
      have hs := hk.2
      rw [Args.generateKey, Args.usePsaKey, ho] at hs
      cases hs
  | generateKey => rfl
  | usePsaKey => rfl

theorem outputKeyPath_default (h : a.DefaultKey) :
    a.outputKeyPath = replaceAll binExt keyExt a.output := by
  rw [Args.outputKeyPath]
  cases hk : a.outputKey with
  | none => rfl
  | some p =>
      cases p with
      | nil => rfl
      | cons c cs =>
          rw [Args.DefaultKey, hk] at h
          cases h

theorem length_outputKeyPath (h : a.DefaultKey) : a.outputKeyPath.length = a.output.length := by
  rw [outputKeyPath_default h]
  exact Nat.add_right_cancel
    (@length_replaceAll _ _ _ keyExt binExt_ne_nil a.output)

theorem outputKeyPath_eq_output (h : a.DefaultKey) :
    a.outputKeyPath = a.output ↔ ¬binExt <:+: a.output := by
  rw [outputKeyPath_default h]
  exact replaceAll_eq_self binExt_ne_nil (by decide)

/-- The names are apart: none is written twice, and none is that of the input or the package. -/
structure Args.NamesApart (a : Args) : Prop where
  outside : ∀ p ∈ a.written, p ≠ a.input ∧ p ≠ a.output
  nodup : a.written.Nodup
  directory : a.generateCHeader = true →
    dirname a.headerPath = dirname a.output ∧ dirname a.sourcePath = dirname a.output

theorem mem_written {p : Path} : p ∈ a.written ↔ p ∈ a.savedKeyPath ∨
    (a.generateCHeader = true ∧ (p = a.headerPath ∨ p = a.sourcePath)) := by
  rw [Args.written, List.mem_append, Option.mem_toList]
  refine or_congr Iff.rfl ?_
  by_cases h : a.generateCHeader = true
  · rw [if_pos h, List.mem_pair]
    exact (and_iff_right h).symm
  · rw [if_neg h]
    exact ⟨fun hm => absurd hm List.not_mem_nil, fun hm => absurd hm.1 h⟩

/-- A key of one's own choice is apart from the header and the source if it is said to be; a default
one is longer than they are. -/
theorem key_ne_header (hn : a.Named) (hk : k ∈ a.savedKeyPath) (hc : a.generateCHeader = true) :
    k ≠ a.headerPath ∧ k ≠ a.sourcePath := by
  by_cases hd : a.DefaultKey
  · have hlen : k.length = a.output.length := by
      rw [mem_savedKeyPath hk]
      exact length_outputKeyPath hd
    have hlt := headerPath_lt (hn.header hc).1
    constructor
    · rintro rfl
      exact absurd hlen (Nat.ne_of_lt hlt)
    · rintro rfl
      rw [length_sourcePath] at hlen
      exact absurd hlen (Nat.ne_of_lt hlt)
  · exact (hn.given_key k hk hd).2 hc

/-- **The names are apart** exactly when they are as `Named` says. -/
theorem namesApart_iff : a.NamesApart ↔ a.Named := by
  constructor
  · intro h
    have key : ∀ k ∈ a.savedKeyPath, k ∈ a.written := fun k hk => mem_written.mpr (Or.inl hk)
    have header : a.generateCHeader = true → a.headerPath ∈ a.written := fun hc =>
      mem_written.mpr (Or.inr ⟨hc, Or.inl rfl⟩)
    have source : a.generateCHeader = true → a.sourcePath ∈ a.written := fun hc =>
      mem_written.mpr (Or.inr ⟨hc, Or.inr rfl⟩)
    constructor
    · exact fun k hk => (h.outside k (key k hk)).1
    · intro hs hd
      obtain ⟨k, hk⟩ := Option.ne_none_iff_exists'.mp hs
      by_contra hno
      refine (h.outside k (key k hk)).2 ?_
      rw [mem_savedKeyPath hk]
      exact (outputKeyPath_eq_output hd).mpr hno
    · refine fun k hk _ => ⟨(h.outside k (key k hk)).2, fun hc => ?_⟩
      have hn := h.nodup
      rw [Args.written, if_pos hc, show a.savedKeyPath = some k from hk, Option.toList_some,
        List.singleton_append, List.nodup_cons, List.mem_pair, not_or] at hn
      exact hn.1
    · intro hc
      have hdir := h.directory hc
      refine ⟨?_, dirname_headerPath.mp hdir.1, (dirname_sourcePath hdir.1).mp hdir.2⟩
      by_contra hno
      exact (h.outside _ (header hc)).2 (headerPath_eq_output.mpr hno)
    · exact fun hc => ⟨(h.outside _ (header hc)).1.symm, (h.outside _ (source hc)).1.symm⟩
  · intro h
    constructor
    · intro p hp
      rcases mem_written.mp hp with hk | ⟨hc, rfl | rfl⟩
      · refine ⟨h.key_input p hk, ?_⟩
        by_cases hd : a.DefaultKey
        · intro he
          have hbin := h.default_key (Option.ne_none_iff_exists'.mpr ⟨p, hk⟩) hd
          rw [mem_savedKeyPath hk] at he
          exact (outputKeyPath_eq_output hd).mp he hbin
        · exact (h.given_key p hk hd).1
      · exact ⟨(h.header_input hc).1.symm, fun he => headerPath_eq_output.mp he (h.header hc).1⟩
      · refine ⟨(h.header_input hc).2.symm, fun he => ?_⟩
        have hlt := headerPath_lt (h.header hc).1
        rw [← length_sourcePath, he] at hlt
        exact Nat.lt_irrefl _ hlt
    · by_cases hc : a.generateCHeader = true
      · have pair : [a.headerPath, a.sourcePath].Nodup := by
          refine List.nodup_cons.mpr ⟨?_, List.nodup_singleton _⟩
          rw [List.mem_singleton]
          exact (sourcePath_ne_headerPath (h.header hc).1).symm
        rw [Args.written, if_pos hc]
        cases hk : a.savedKeyPath with
        | none => exact pair
        | some k =>
            have hne := key_ne_header h hk hc
            refine List.nodup_cons.mpr ⟨fun hm => ?_, pair⟩
            rcases List.mem_pair.mp hm with he | he
            · exact hne.1 he
            · exact hne.2 he
      · rw [Args.written, if_neg hc, List.append_nil]
        exact Option.toList_nodup _
    · intro hc
      obtain ⟨-, hb, hh⟩ := h.header hc
      have hd := dirname_headerPath.mpr hb
      exact ⟨hd, (dirname_sourcePath hd).mpr hh⟩

end Names

/-! ### The files of a run -/

section Run

variable {ν : Type} [DecidableEq ν] {t : Tool ν} {a : Args} {fs fs' : Files ν} {package : List Byte}

/-- The files that several paths get, one after the other. -/
def Tool.putAll (t : Tool ν) (fs : Files ν) (writes : List (Path × List Byte)) : Files ν :=
  writes.foldl (fun fs w => t.put fs w.1 w.2) fs

theorem write_eq_some {p : Path} {data : List Byte} (h : t.write fs p data = some fs') :
    fs' = t.put fs p data := by
  rw [Tool.write] at h
  by_cases hw : t.writable p = true
  · rw [if_pos hw] at h
    exact (Option.some.inj h).symm
  · rw [if_neg hw] at h
    cases h

/-- Other files stay. -/
theorem putAll_frame (writes : List (Path × List Byte)) (fs : Files ν) {x : ν}
    (h : ∀ p ∈ writes.map Prod.fst, t.node p ≠ x) : t.putAll fs writes x = fs x := by
  induction writes generalizing fs with
  | nil => rfl
  | cons w ws ih =>
      have hw := h w.1 List.mem_cons_self
      have hws : ∀ p ∈ ws.map Prod.fst, t.node p ≠ x := fun p hp => h p (List.mem_cons_of_mem _ hp)
      exact (ih (t.put fs w.1 w.2) hws).trans (Function.update_of_ne hw.symm _ _)

/-- **What a run does to the files**: it writes the package, and then the files of `written`. -/
theorem main_writes (run : t.main a fs = some (package, fs')) :
    ∃ writes, writes.map Prod.fst = a.written ∧
      fs' = t.putAll (t.put fs a.output package) writes := by
  rw [Tool.main] at run
  by_cases hin : fs (t.node a.input) = none
  · rw [if_pos hin] at run
    cases run
  rw [if_neg hin] at run
  simp only [Tool.encryptTinymaixModel, Option.bind_eq_bind, Option.bind_eq_some_iff] at run
  obtain ⟨header, -, text, -, parsed, -, key, -, pkg, -, fs₁, h₁, fs₂, h₂, fs₃, h₃, hret⟩ := run
  obtain ⟨rfl, rfl⟩ := Prod.mk.inj (Option.some.inj hret)
  -- the key
  have keyWrites : ∃ writes, writes.map Prod.fst = a.savedKeyPath.toList ∧
      fs₂ = t.putAll fs₁ writes := by
    rw [Args.savedKeyPath]
    cases hk : savedKey (some a.keyPath) a.generateKey a.usePsaKey with
    | none =>
        rw [hk] at h₂
        exact ⟨[], rfl, (Option.some.inj h₂).symm⟩
    | some k =>
        rw [hk] at h₂
        simp only [Tool.saveKeyFile, Option.bind_eq_bind, Option.bind_eq_some_iff] at h₂
        obtain ⟨fs₀, hw, hc⟩ := h₂
        refine ⟨[(k, keyFileData key.1 (if a.generateKey then key.2 else none))], rfl, ?_⟩
        by_cases hm : t.chmod k = true
        · rw [if_pos hm] at hc
          rw [← Option.some.inj hc]
          exact write_eq_some hw
        · rw [if_neg hm] at hc
          cases hc
  -- the header and the source
  have headerWrites : ∃ writes, writes.map Prod.fst =
      (if a.generateCHeader then [a.headerPath, a.sourcePath] else []) ∧
      fs₃ = t.putAll fs₂ writes := by
    by_cases hc : a.generateCHeader = true
    · rw [if_pos hc] at h₃ ⊢
      simp only [Tool.generateCHeader, Option.bind_eq_bind, Option.bind_eq_some_iff] at h₃
      obtain ⟨ht, -, fs₀, hw, st, -, hs⟩ := h₃
      refine ⟨[(a.headerPath, ht), (a.sourcePath, st)], rfl, ?_⟩
      rw [write_eq_some hs, write_eq_some hw]
      rfl
    · rw [if_neg hc] at h₃ ⊢
      exact ⟨[], rfl, (Option.some.inj h₃).symm⟩
  obtain ⟨ws, hws, rfl⟩ := keyWrites
  obtain ⟨vs, hvs, rfl⟩ := headerWrites
  refine ⟨ws ++ vs, ?_, ?_⟩
  · rw [List.map_append, hws, hvs, Args.written]
  · rw [write_eq_some h₁, Tool.putAll, Tool.putAll, Tool.putAll, List.foldl_append]

/-- **No file is written over by another**: the package is at the output path, the input is as it
was, and the other files are apart from these and from each other, the header and the source next to
the package. -/
structure FilesKept (t : Tool ν) (a : Args) (fs : Files ν) (package : List Byte) (fs' : Files ν) :
    Prop where
  output : fs' (t.node a.output) = some package
  input : fs' (t.node a.input) = fs (t.node a.input)
  outside : ∀ p ∈ a.written, t.node p ≠ t.node a.input ∧ t.node p ≠ t.node a.output
  apart : a.written.Pairwise fun p q => t.node p ≠ t.node q
  directory : a.generateCHeader = true →
    dirname a.headerPath = dirname a.output ∧ dirname a.sourcePath = dirname a.output

/-- No two names of the run are names of one file, the input and the output perhaps. -/
def Tool.Unaliased (t : Tool ν) (a : Args) : Prop :=
  ∀ p ∈ a.written, ∀ q ∈ a.input :: a.output :: a.written, p ≠ q → t.node p ≠ t.node q

omit [DecidableEq ν] in
theorem namesApart_of_kept (h : FilesKept t a fs package fs') : a.NamesApart := by
  constructor
  · intro p hp
    have hout := h.outside p hp
    exact ⟨fun he => hout.1 (he ▸ rfl), fun he => hout.2 (he ▸ rfl)⟩
  · exact h.apart.imp fun hne he => hne (congrArg t.node he)
  · exact h.directory

omit [DecidableEq ν] in
theorem unaliased_of_kept (h : FilesKept t a fs package fs') : t.Unaliased a := by
  intro p hp q hq hne
  rcases List.mem_cons.mp hq with rfl | hq
  · exact (h.outside p hp).1
  · rcases List.mem_cons.mp hq with rfl | hq
    · exact (h.outside p hp).2
    · have symm : Std.Symm fun p q => t.node p ≠ t.node q := ⟨fun _ _ => Ne.symm⟩
      exact h.apart.forall hp hq hne

/-- **When the files are kept**: the names are as they have to be, no two of them are names of one
file, and the input is not the output. -/
theorem files_kept_iff (run : t.main a fs = some (package, fs')) :
    FilesKept t a fs package fs' ↔ a.Named ∧ t.Unaliased a ∧
      (t.node a.input = t.node a.output → fs (t.node a.input) = some package) := by
  obtain ⟨writes, hwrites, rfl⟩ := main_writes run
  constructor
  · intro h
    refine ⟨namesApart_iff.mp (namesApart_of_kept h), unaliased_of_kept h, fun hio => ?_⟩
    rw [← h.input, hio]
    exact h.output
  · rintro ⟨hn, hu, hio⟩
    have names := namesApart_iff.mpr hn
    have outside : ∀ p ∈ a.written, t.node p ≠ t.node a.input ∧ t.node p ≠ t.node a.output := by
      intro p hp
      have hne := names.outside p hp
      exact ⟨hu p hp _ List.mem_cons_self hne.1,
        hu p hp _ (List.mem_cons_of_mem _ List.mem_cons_self) hne.2⟩
    have output : t.putAll (t.put fs a.output package) writes (t.node a.output) = some package := by
      rw [putAll_frame writes _ fun p hp => (outside p (hwrites ▸ hp)).2]
      exact Function.update_self _ _ _
    refine ⟨output, ?_, outside, ?_, names.directory⟩
    · by_cases he : t.node a.input = t.node a.output
      · rw [hio he, he]
        exact output
      · rw [putAll_frame writes _ fun p hp => (outside p (hwrites ▸ hp)).1]
        exact Function.update_of_ne he _ _
    · refine names.nodup.imp_of_mem fun hp hq hne => ?_
      exact hu _ hp _ (List.mem_cons_of_mem _ (List.mem_cons_of_mem _ hq)) hne

end Run

/-! ### Runs -/

/-- A tool whose cipher does nothing, on a system where every path is a file. -/
def plainTool : Tool Path where
  py := asciiPython
  upper := List.map Char.toUpper
  aes _ := Equiv.refl _
  pbkdf2 _ _ _ := 0
  randomKey _ := 0
  salt _ := 0
  iv _ := 0
  node := id
  writable _ := true
  chmod _ := true
  decode bs := some (bs.map fun b => Char.ofNat b.toNat)
  encode cs := some (cs.map fun c => BitVec.ofNat 8 c.toNat)

/-- A header with a model of one byte. -/
def plainFiles : Files Path := fun p =>
  if p = ['m', '.', 'h'] then
    some (("const uint8_t m[1] = ".toList ++ ['{', '0', 'x', '0', '1', '}']).map fun c =>
      BitVec.ofNat 8 c.toNat)
  else none

/-- `--input m.h --output <output> --use-psa-key --generate-c-header`. -/
def plainArgs (output : Path) : Args where
  input := ['m', '.', 'h']
  output := output
  keyOption := .usePsaKey
  password := none
  generateCHeader := true
  outputKey := none

/-- Into `n.bin`, the files are kept. -/
theorem files_kept_apart : ∃ package fs',
    plainTool.main (plainArgs ['n', '.', 'b', 'i', 'n']) plainFiles = some (package, fs') ∧
      FilesKept plainTool (plainArgs ['n', '.', 'b', 'i', 'n']) plainFiles package fs' := by
  have finishes : (plainTool.main (plainArgs ['n', '.', 'b', 'i', 'n']) plainFiles).isSome = true := by
    decide +kernel
  obtain ⟨⟨package, fs'⟩, run⟩ := Option.isSome_iff_exists.mp finishes
  refine ⟨package, fs', run, (files_kept_iff run).mpr ⟨?_, fun _ _ _ _ hne => hne, ?_⟩⟩
  · constructor
    · intro k hk
      rw [mem_savedKeyPath hk]
      decide
    · exact fun _ _ => by decide
    · exact fun k _ hd => absurd rfl hd
    · exact fun _ => by decide
    · exact fun _ => by decide
  · exact fun he => absurd he (by decide)

/-- **Into `m.bin`, the header goes over the input `m.h`.** -/
theorem input_written_over : ∃ package fs',
    plainTool.main (plainArgs ['m', '.', 'b', 'i', 'n']) plainFiles = some (package, fs') ∧
      ¬FilesKept plainTool (plainArgs ['m', '.', 'b', 'i', 'n']) plainFiles package fs' := by
  have finishes : (plainTool.main (plainArgs ['m', '.', 'b', 'i', 'n']) plainFiles).isSome = true := by
    decide +kernel
  obtain ⟨⟨package, fs'⟩, run⟩ := Option.isSome_iff_exists.mp finishes
  refine ⟨package, fs', run, fun kept => ?_⟩
  have header : (plainArgs ['m', '.', 'b', 'i', 'n']).headerPath ∈
      (plainArgs ['m', '.', 'b', 'i', 'n']).written := by decide
  have same : (plainArgs ['m', '.', 'b', 'i', 'n']).headerPath = ['m', '.', 'h'] := by decide
  exact (kept.outside _ header).1 same

end Encryptor
