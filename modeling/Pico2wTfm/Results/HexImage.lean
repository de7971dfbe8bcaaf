import Mathlib.Data.List.Chain
import Pico2wTfm.Results.Uf2RoundTrip

/-!
# Results — HexImage

An Intel HEX file is a list of bytes for addresses (`writes`); a later one for the same address takes
the place of an earlier one (`latest`).  `convert_from_hex_to_uf2` sorts them into pages of 256 bytes,
of which it has only the last one open.  As long as the file does not go back to an earlier page,
nothing is lost (`Pages.put`).

* `hex_image`: the UF2 file leaves the bytes of the HEX file in a memory, and `0xFF` in the rest of
  their pages.  It is converted back exactly when no gap between two pages is longer than ten
  megabytes, and is then the same over zeros.
-/

namespace Uf2
open Bytes Placement

/-! ### What a HEX file says -/

/-- The bytes of a data record, with their addresses. -/
def numbered : Nat → List Nat → List (Nat × Byte)
  | _, [] => []
  | addr, v :: vs => (addr, BitVec.ofNat 8 v) :: numbered (addr + 1) vs

/-- The bytes that the lines give for addresses; `upper` is what an offset is added to. -/
def writes : List (List Byte) → Nat → Option (List (Nat × Byte))
  | [], _ => some []
  | line :: rest, upper => do
    let c ← line.head?
    if c ≠ 0x3A then writes rest upper
    else
      let record ← recordOf line.tail
      let tp ← record[3]?
      if tp = 4 then (field record 4).bind fun n => writes rest (n * 2 ^ 16)
      else if tp = 2 then (field record 4).bind fun n => writes rest (n * 2 ^ 4)
      else if tp = 1 then some []
      else if tp = 0 then
        (field record 1).bind fun offset => (writes rest upper).map fun ws =>
          numbered (upper + offset) (record.drop 4).dropLast ++ ws
      else writes rest upper

/-- The last byte for an address. -/
def latest (ws : List (Nat × Byte)) (a : Nat) : Option Byte :=
  ws.foldl (fun v w => if w.1 = a then some w.2 else v) none

/-- The file says something about the page of `a`. -/
def Touched (ws : List (Nat × Byte)) (a : Nat) : Prop := ∃ w ∈ ws, pageOf w.1 = pageOf a

instance (ws : List (Nat × Byte)) (a : Nat) : Decidable (Touched ws a) :=
  inferInstanceAs (Decidable (∃ w ∈ ws, _))

/-- The file does not go back to an earlier page. -/
def Upward (ws : List (Nat × Byte)) : Prop := ws.IsChain fun v w => pageOf v.1 ≤ pageOf w.1

/-- The gap from the end of the page `p` to the page `q` is not too long to be filled. -/
def Bridges (p q : Nat) : Prop := q ≤ p + 256 + maxPadding

/-- No gap is too long. -/
def Bridged (ws : List (Nat × Byte)) : Prop := ws.IsChain fun v w => Bridges (pageOf v.1) (pageOf w.1)

theorem latest_append {ws : List (Nat × Byte)} {a x : Nat} {v : Byte} :
    latest (ws ++ [(a, v)]) x = if a = x then some v else latest ws x := by
  rw [latest, List.foldl_append]
  rfl

/-- The blocks after bytes that are put in one by one. -/
def putAll (blocks : List Block) (ws : List (Nat × Byte)) : List Block :=
  ws.foldl (fun bs w => putByte bs w.1 w.2) blocks

theorem putBytes_eq {blocks : List Block} {addr : Nat} {vs : List Nat} :
    putBytes blocks addr vs = putAll blocks (numbered addr vs) := by
  induction vs generalizing blocks addr with
  | nil => rfl
  | cons v vs ih => exact ih

/-- **The conversion, record by record**: it ends without an exception when the lines say something,
and puts in what they say. -/
theorem hexLines_writes (lines : List (List Byte)) (st : HexState) :
    (writes lines st.upper = none ∧ hexLines lines st = none) ∨
      ∃ ws st', writes lines st.upper = some ws ∧ hexLines lines st = some st' ∧
        st'.blocks = putAll st.blocks ws ∧
        (ws ≠ [] ∨ st.appstartaddr ≠ none → st'.appstartaddr ≠ none) := by
  induction lines generalizing st with
  | nil => exact Or.inr ⟨[], st, rfl, rfl, rfl, fun h => h.elim (fun h => absurd rfl h) id⟩
  | cons line rest ih =>
      rw [hexLines, writes]
      simp only [Option.bind_eq_bind]
      cases line.head? with
      | none => exact Or.inl ⟨rfl, rfl⟩
      | some c =>
          rw [Option.bind_some, Option.bind_some]
          by_cases hcolon : c ≠ 0x3A
          · rw [if_pos hcolon, if_pos hcolon]
            exact ih st
          rw [if_neg hcolon, if_neg hcolon]
          cases recordOf line.tail with
          | none => exact Or.inl ⟨rfl, rfl⟩
          | some record =>
              rw [Option.bind_some, Option.bind_some]
              cases record[3]? with
              | none => exact Or.inl ⟨rfl, rfl⟩
              | some tp =>
                  rw [Option.bind_some, Option.bind_some]
                  by_cases h4 : tp = 4
                  · rw [if_pos h4, if_pos h4]
                    cases field record 4 with
                    | none => exact Or.inl ⟨rfl, rfl⟩
                    | some n => exact ih { st with upper := n * 2 ^ 16 }
                  rw [if_neg h4, if_neg h4]
                  by_cases h2 : tp = 2
                  · rw [if_pos h2, if_pos h2]
                    cases field record 4 with
                    | none => exact Or.inl ⟨rfl, rfl⟩
                    | some n => exact ih { st with upper := n * 2 ^ 4 }
                  rw [if_neg h2, if_neg h2]
                  by_cases h1 : tp = 1
                  · rw [if_pos h1, if_pos h1]
                    exact Or.inr ⟨[], st, rfl, rfl, rfl, fun h => h.elim (fun h => absurd rfl h) id⟩
                  rw [if_neg h1, if_neg h1]
                  by_cases h0 : tp = 0
                  · -- a data record
                    rw [if_pos h0, if_pos h0]
                    cases field record 1 with
                    | none => exact Or.inl ⟨rfl, rfl⟩
                    | some offset =>
                        rw [Option.bind_some, Option.bind_some]
                        rcases ih { st with
                            appstartaddr := some (st.appstartaddr.getD (st.upper + offset))
                            blocks := putBytes st.blocks (st.upper + offset)
                              (record.drop 4).dropLast } with
                          ⟨hw, hl⟩ | ⟨ws, st', hw, hl, hblocks, hstart⟩
                        · have hw : writes rest st.upper = none := hw
                          exact Or.inl ⟨by rw [hw]; rfl, hl⟩
                        · have hw : writes rest st.upper = some ws := hw
                          refine Or.inr ⟨_, st', by rw [hw]; rfl, hl, ?_, fun _ =>
                            hstart (Or.inr (Option.some_ne_none _))⟩
                          rw [hblocks, putBytes_eq, putAll, putAll, putAll, List.foldl_append]
                  · rw [if_neg h0, if_neg h0]
                    exact ih st

/-! ### Pages -/

/-- A chain with one more link. -/
theorem isChain_concat {α : Type*} {R : α → α → Prop} {l : List α} {a : α} :
    (l ++ [a]).IsChain R ↔ l.IsChain R ∧ ∀ x ∈ l.getLast?, R x a := by
  rw [List.isChain_append, and_iff_right (List.isChain_singleton a)]
  simp only [List.head?_cons, Option.mem_some_iff, forall_eq']

/-- Pages one after the other. -/
def Following (p q : Nat) : Prop := p + 256 ≤ q

/-- **The blocks are the pages of what was put in.** -/
structure Pages (ws : List (Nat × Byte)) (blocks : List Block) : Prop where
  chain : (blocks.map Block.addr).IsChain Following
  whole : ∀ b ∈ blocks, pageOf b.addr = b.addr
  touched : ∀ a, (∃ b ∈ blocks, b.addr = pageOf a) ↔ Touched ws a
  bytes : ∀ b ∈ blocks, ∀ i < 256, b.bytes[i]? = some ((latest ws (b.addr + i)).getD 0xFF)
  last : blocks.getLast?.map Block.addr = ws.getLast?.map fun w => pageOf w.1
  first : blocks.head?.map Block.addr = ws.head?.map fun w => pageOf w.1
  /-- The gaps between the blocks are those of the file. -/
  gaps : (blocks.map Block.addr).IsChain Bridges ↔ Bridged ws

theorem pageOf_pageOf (a : Nat) : pageOf (pageOf a) = pageOf a := by
  rw [pageOf, pageOf, Nat.mul_div_cancel _ (by decide)]

theorem pageOf_add {p i : Nat} (hp : pageOf p = p) (hi : i < 256) : pageOf (p + i) = p := by
  obtain ⟨q, rfl⟩ : ∃ q, p = q * 256 := ⟨p / 256, hp.symm⟩
  have hdiv : (q * 256 + i) / 256 = q := by omega
  rw [pageOf, hdiv]

theorem pageOf_add_mod (a : Nat) : pageOf a + a % 256 = a := Nat.div_add_mod' a 256

section Put

variable {ws : List (Nat × Byte)} {blocks : List Block} {a : Nat} {v : Byte}

theorem touched_append {x : Nat} :
    Touched (ws ++ [(a, v)]) x ↔ Touched ws x ∨ pageOf a = pageOf x := by
  constructor
  · rintro ⟨w, hw, hp⟩
    rcases List.mem_append.mp hw with hw | hw
    · exact Or.inl ⟨w, hw, hp⟩
    · obtain rfl := List.mem_singleton.mp hw
      exact Or.inr hp
  · rintro (⟨w, hw, hp⟩ | hp)
    · exact ⟨w, List.mem_append_left _ hw, hp⟩
    · exact ⟨(a, v), List.mem_append_right _ List.mem_cons_self, hp⟩

/-- A block with one byte put in. -/
theorem bytes_set {b : Block} {f : Nat → Byte} (hpage : b.addr = pageOf a)
    (hf : ∀ i < 256, b.bytes[i]? = some (f (b.addr + i))) :
    ∀ i < 256, (b.set (a % 256) v).bytes[i]? =
      some (if a = b.addr + i then v else f (b.addr + i)) := by
  intro i hi
  have hlen : a % 256 < b.bytes.length := by
    rw [b.length_eq]
    exact Nat.mod_lt _ (by decide)
  have hset : (b.set (a % 256) v).bytes = b.bytes.set (a % 256) v := rfl
  rw [hset, List.getElem?_set, hf i hi]
  have haddr := pageOf_add_mod a
  by_cases he : a % 256 = i
  · rw [if_pos he, if_pos hlen, if_pos (by rw [hpage]; omega)]
  · rw [if_neg he, if_neg (by rw [hpage]; omega)]

/-- An address that no line gives a byte for. -/
theorem latest_of_not_touched (h : ¬Touched ws a) {x : Nat} (hx : pageOf x = pageOf a) :
    latest ws x = none := by
  induction ws using List.reverseRecOn with
  | nil => rfl
  | append_singleton ws w ih =>
      have hw : w.1 ≠ x := fun heq =>
        h ⟨w, List.mem_append_right _ List.mem_cons_self, by rw [heq, hx]⟩
      rw [show ws ++ [w] = ws ++ [(w.1, w.2)] from rfl, latest_append, if_neg hw]
      refine ih fun hu => h ?_
      obtain ⟨u, hu, hp⟩ := hu
      exact ⟨u, List.mem_append_left _ hu, hp⟩

/-- A byte for another page. -/
theorem latest_other {b : Block} (hb : pageOf b.addr = b.addr) (hne : b.addr ≠ pageOf a) {i : Nat}
    (hi : i < 256) : latest (ws ++ [(a, v)]) (b.addr + i) = latest ws (b.addr + i) := by
  have ha : a ≠ b.addr + i := fun heq => hne (by rw [heq, pageOf_add hb hi])
  rw [latest_append, if_neg ha]

/-- A block with one byte put in, in its page. -/
theorem bytes_put {b : Block} (hpage : b.addr = pageOf a)
    (hbytes : ∀ i < 256, b.bytes[i]? = some ((latest ws (b.addr + i)).getD 0xFF)) :
    ∀ i < 256, (b.set (a % 256) v).bytes[i]? =
      some ((latest (ws ++ [(a, v)]) (b.addr + i)).getD 0xFF) := by
  intro i hi
  rw [bytes_set (f := fun x => (latest ws x).getD 0xFF) hpage hbytes i hi, latest_append]
  congr 1
  split <;> rfl

/-- A page that is opened. -/
theorem bytes_new (hnew : ¬Touched ws a) : ∀ i < 256,
    ((Block.new (pageOf a)).set (a % 256) v).bytes[i]? =
      some ((latest (ws ++ [(a, v)]) (pageOf a + i)).getD 0xFF) := by
  refine bytes_put (b := Block.new (pageOf a)) rfl fun i hi => ?_
  have hnone : latest ws (pageOf a + i) = none :=
    latest_of_not_touched hnew (pageOf_add (pageOf_pageOf a) hi)
  have hbyte : (Block.new (pageOf a)).bytes[i]? = some 0xFF := List.getElem?_replicate_of_lt hi
  have haddr : (Block.new (pageOf a)).addr = pageOf a := rfl
  rw [haddr, hnone, hbyte]
  rfl

/-- The last page is above the others. -/
theorem Pages.lt_last {init : List Block} {b c : Block} (h : Pages ws (init ++ [c]))
    (hb : b ∈ init) : b.addr < c.addr := by
  have sorted : ((init ++ [c]).map Block.addr).Pairwise (· < ·) :=
    (h.chain.imp fun p q hpq => by
      rw [Following] at hpq
      omega).pairwise
  rw [List.map_append, List.pairwise_append] at sorted
  exact sorted.2.2 _ (List.mem_map_of_mem hb) _ List.mem_cons_self

/-- The last block is the page of the last byte. -/
theorem Pages.bridges_last (h : Pages ws blocks) {q : Nat} :
    (∀ p ∈ (blocks.map Block.addr).getLast?, Bridges p q) ↔
      ∀ w ∈ ws.getLast?, Bridges (pageOf w.1) q := by
  rw [List.getLast?_map, h.last]
  simp only [Option.mem_def, Option.map_eq_some_iff, forall_exists_index, and_imp,
    forall_apply_eq_imp_iff₂]

/-- **A byte in the page that is open.** -/
theorem Pages.put_same {init : List Block} {b : Block} (h : Pages ws (init ++ [b]))
    (hpage : b.addr = pageOf a) :
    Pages (ws ++ [(a, v)]) (init ++ [b.set (a % 256) v]) := by
  have hmem : b ∈ init ++ [b] := List.mem_append_right _ List.mem_cons_self
  have haddr : (b.set (a % 256) v).addr = b.addr := rfl
  have haddrs : (init ++ [b.set (a % 256) v]).map Block.addr = (init ++ [b]).map Block.addr := by
    rw [List.map_append, List.map_append, List.map_singleton, List.map_singleton, haddr]
  -- the blocks before are of other pages
  have other : ∀ b' ∈ init, b'.addr ≠ pageOf a := fun b' hb' =>
    (hpage ▸ h.lt_last hb').ne
  have htouched : Touched ws a := (h.touched a).mp ⟨b, hmem, hpage⟩
  have addrs : ∀ x, (∃ b' ∈ init ++ [b.set (a % 256) v], b'.addr = x) ↔
      ∃ b' ∈ init ++ [b], b'.addr = x := by
    intro x
    rw [← List.mem_map, ← List.mem_map, haddrs]
  constructor
  · rw [haddrs]
    exact h.chain
  · intro b' hb'
    obtain ⟨c, hc, hcaddr⟩ := (addrs b'.addr).mp ⟨b', hb', rfl⟩
    rw [← hcaddr, h.whole c hc]
  · intro x
    rw [addrs, h.touched, touched_append]
    refine ⟨Or.inl, fun hx => hx.elim id fun hx => ?_⟩
    obtain ⟨w, hw, hp⟩ := htouched
    exact ⟨w, hw, hp.trans hx⟩
  · intro b' hb'
    rcases List.mem_append.mp hb' with hb' | hb'
    · have hin : b' ∈ init ++ [b] := List.mem_append_left _ hb'
      intro i hi
      rw [latest_other (h.whole b' hin) (other b' hb') hi]
      exact h.bytes b' hin i hi
    · obtain rfl := List.mem_singleton.mp hb'
      exact bytes_put hpage (h.bytes b hmem)
  · rw [List.getLast?_concat, List.getLast?_concat]
    exact congrArg some hpage
  · have hfirst := h.first
    have hne : ws ≠ [] := fun hnil => by
      rw [hnil] at htouched
      obtain ⟨w, hw, -⟩ := htouched
      exact absurd hw List.not_mem_nil
    rw [← List.head?_map, haddrs, List.head?_map, hfirst, List.head?_append_of_ne_nil _ hne]
  · -- the byte is in the page of the one before it
    have hlink : ∀ w ∈ ws.getLast?, Bridges (pageOf w.1) (pageOf a) := by
      refine h.bridges_last.mp fun p hp => ?_
      rw [List.map_append, List.map_singleton, List.getLast?_concat] at hp
      obtain rfl : b.addr = p := Option.some.inj hp
      rw [Bridges, hpage]
      omega
    rw [haddrs, h.gaps, Bridged, Bridged, isChain_concat]
    exact (and_iff_left hlink).symm

/-- **A byte in a page behind those that there are.** -/
theorem Pages.put_new (h : Pages ws blocks)
    (hlast : ∀ b ∈ blocks.getLast?, Following b.addr (pageOf a)) :
    Pages (ws ++ [(a, v)]) (blocks ++ [(Block.new (pageOf a)).set (a % 256) v]) := by
  have haddr : ((Block.new (pageOf a)).set (a % 256) v).addr = pageOf a := rfl
  have haddrs : (blocks ++ [(Block.new (pageOf a)).set (a % 256) v]).map Block.addr =
      blocks.map Block.addr ++ [pageOf a] := by
    rw [List.map_append, List.map_singleton, haddr]
  have below : ∀ b ∈ blocks, b.addr < pageOf a := by
    intro b hb
    obtain ⟨c, hc⟩ : ∃ c, blocks.getLast? = some c :=
      ⟨_, List.getLast?_eq_some_getLast (List.ne_nil_of_mem hb)⟩
    have hfar : c.addr + 256 ≤ pageOf a := hlast c hc
    obtain ⟨init, rfl⟩ := List.getLast?_eq_some_iff.mp hc
    rcases List.mem_append.mp hb with hb | hb
    · have hlt := h.lt_last hb
      omega
    · obtain rfl := List.mem_singleton.mp hb
      omega
  have hnew : ¬Touched ws a := fun ht => by
    obtain ⟨b, hb, heq⟩ := (h.touched a).mpr ht
    exact absurd heq (below b hb).ne
  constructor
  · rw [haddrs, isChain_concat]
    refine ⟨h.chain, fun p hp => ?_⟩
    rw [List.getLast?_map] at hp
    obtain ⟨b, hb, rfl⟩ := Option.map_eq_some_iff.mp hp
    exact hlast b hb
  · intro b hb
    rcases List.mem_append.mp hb with hb | hb
    · exact h.whole b hb
    · obtain rfl := List.mem_singleton.mp hb
      rw [haddr, pageOf_pageOf]
  · intro x
    rw [touched_append, ← h.touched]
    constructor
    · rintro ⟨b, hb, hx⟩
      rcases List.mem_append.mp hb with hb | hb
      · exact Or.inl ⟨b, hb, hx⟩
      · obtain rfl := List.mem_singleton.mp hb
        exact Or.inr hx
    · rintro (⟨b, hb, hx⟩ | hx)
      · exact ⟨b, List.mem_append_left _ hb, hx⟩
      · exact ⟨_, List.mem_append_right _ List.mem_cons_self, hx⟩
  · intro b hb
    rcases List.mem_append.mp hb with hb | hb
    · intro i hi
      rw [latest_other (h.whole b hb) (below b hb).ne hi]
      exact h.bytes b hb i hi
    · obtain rfl := List.mem_singleton.mp hb
      exact bytes_new hnew
  · rw [List.getLast?_concat, List.getLast?_concat]
    rfl
  · rw [List.head?_append, List.head?_append, Option.map_or, Option.map_or, h.first]
    rfl
  · -- the new gap is the one in front of the page
    rw [haddrs, Bridged, isChain_concat, isChain_concat, h.gaps, h.bridges_last, Bridged]

/-- **One byte**, when the file goes on to its page. -/
theorem Pages.put (h : Pages ws blocks) (ha : ∀ w ∈ ws.getLast?, pageOf w.1 ≤ pageOf a) :
    Pages (ws ++ [(a, v)]) (putByte blocks a v) := by
  rw [putByte]
  cases hlast : blocks.getLast? with
  | none =>
      obtain rfl := List.getLast?_eq_none_iff.mp hlast
      exact h.put_new fun b hb => by cases hb
  | some b =>
      obtain ⟨init, rfl⟩ := List.getLast?_eq_some_iff.mp hlast
      have hwhole := h.whole b (List.mem_append_right _ List.mem_cons_self)
      obtain ⟨w, hw, hwb⟩ : ∃ w, ws.getLast? = some w ∧ pageOf w.1 = b.addr := by
        have heq := h.last
        rw [hlast] at heq
        exact Option.map_eq_some_iff.mp heq.symm
      have hle := ha w hw
      dsimp only
      by_cases hpage : pageOf b.addr = pageOf a
      · rw [if_pos hpage, List.dropLast_concat]
        exact h.put_same (hwhole.symm.trans hpage)
      · rw [if_neg hpage]
        refine h.put_new fun c hc => ?_
        obtain rfl : b = c := Option.some.inj (hlast.symm.trans hc)
        rw [hwhole] at hpage
        rw [hwb] at hle
        rw [Following]
        -- both are multiples of 256
        obtain ⟨m, hm⟩ : ∃ m, b.addr = m * 256 := ⟨b.addr / 256, hwhole.symm⟩
        obtain ⟨n, hn⟩ : ∃ n, pageOf a = n * 256 := ⟨a / 256, rfl⟩
        omega

end Put

/-- **All bytes of a file.** -/
theorem pages_putAll {ws : List (Nat × Byte)} (h : Upward ws) : Pages ws (putAll [] ws) := by
  induction ws using List.reverseRecOn with
  | nil =>
      refine ⟨List.isChain_nil, fun b hb => absurd hb List.not_mem_nil, fun a => ?_,
        fun b hb => absurd hb List.not_mem_nil, rfl, rfl,
        ⟨fun _ => List.isChain_nil, fun _ => List.isChain_nil⟩⟩
      constructor
      · rintro ⟨b, hb, -⟩
        exact absurd hb List.not_mem_nil
      · rintro ⟨w, hw, -⟩
        exact absurd hw List.not_mem_nil
  | append_singleton ws w ih =>
      obtain ⟨hws, hlink⟩ := isChain_concat.mp h
      have hput : putAll [] (ws ++ [w]) = putByte (putAll [] ws) w.1 w.2 := by
        rw [putAll, List.foldl_append]
        rfl
      rw [hput]
      exact (ih hws).put hlink

/-! ### The pages in a memory -/

def Block.piece (b : Block) : Piece Byte := ⟨b.addr, b.bytes⟩

theorem Block.stop_piece (b : Block) : b.piece.stop = b.addr + 256 :=
  congrArg (b.addr + ·) b.length_eq

theorem Block.covers_piece {b : Block} (hb : pageOf b.addr = b.addr) {a : Nat} :
    b.piece.Covers a ↔ b.addr = pageOf a := by
  have haddr := pageOf_add_mod a
  have hmod : a % 256 < 256 := Nat.mod_lt a (by decide)
  rw [Piece.Covers, b.stop_piece, show b.piece.addr = b.addr from rfl]
  constructor
  · rintro ⟨hle, hlt⟩
    have hpage := @pageOf_add b.addr (a - b.addr) hb (by omega)
    rw [Nat.add_sub_cancel' hle] at hpage
    exact hpage.symm
  · intro heq
    omega

/-- Pages that follow one another are in order, -/
theorem ascending_pieces {blocks : List Block} {curr : Nat} (hfirst : ∀ b ∈ blocks.head?, curr ≤ b.addr)
    (hchain : (blocks.map Block.addr).IsChain Following) :
    Ascending curr (blocks.map Block.piece) := by
  induction blocks generalizing curr with
  | nil => trivial
  | cons b blocks ih =>
      rw [List.map_cons, List.isChain_cons] at hchain
      refine ⟨hfirst b rfl, ?_⟩
      rw [b.stop_piece]
      refine ih (fun c hc => ?_) hchain.2
      exact hchain.1 c.addr (by rw [List.head?_map, hc]; rfl)

/-- and near enough to be read back exactly when no gap is too long. -/
theorem near_pieces {blocks : List Block} {curr : Nat} (hcurr : pageOf curr = curr)
    (hwhole : ∀ b ∈ blocks, pageOf b.addr = b.addr) (hfirst : ∀ b ∈ blocks.head?, curr ≤ b.addr)
    (hchain : (blocks.map Block.addr).IsChain Following) : Near curr (blocks.map Block.piece) ↔
      (∀ p ∈ (blocks.map Block.addr).head?, p ≤ curr + maxPadding) ∧
        (blocks.map Block.addr).IsChain Bridges := by
  induction blocks generalizing curr with
  | nil => exact iff_of_true trivial ⟨fun p hp => absurd hp (by simp), List.isChain_nil⟩
  | cons b blocks ih =>
      obtain ⟨hb, hbs⟩ := List.forall_mem_cons.mp hwhole
      have hle := hfirst b rfl
      rw [List.map_cons, List.isChain_cons] at hchain
      have hstop : pageOf (b.addr + 256) = b.addr + 256 := by
        rw [pageOf, Nat.add_div_right _ (by decide), Nat.succ_mul]
        exact congrArg (· + 256) hb
      have haddr : b.piece.addr = b.addr := rfl
      have hwords : (b.addr - curr) % 4 = 0 := by
        obtain ⟨m, hm⟩ : ∃ m, b.addr = m * 256 := ⟨b.addr / 256, hb.symm⟩
        obtain ⟨n, hn⟩ : ∃ n, curr = n * 256 := ⟨curr / 256, hcurr.symm⟩
        omega
      have hrest := ih hstop hbs (fun c hc => hchain.1 c.addr (by rw [List.head?_map, hc]; rfl))
        hchain.2
      rw [List.map_cons, List.map_cons, Near, b.stop_piece, hrest, List.isChain_cons, List.head?_cons,
        haddr]
      constructor
      · rintro ⟨⟨-, hgap, -⟩, hlinks⟩
        refine ⟨fun p hp => ?_, hlinks⟩
        obtain rfl : b.addr = p := Option.some.inj hp
        omega
      · rintro ⟨hgap, hlinks⟩
        have hgap := hgap b.addr rfl
        exact ⟨⟨hle, by omega, hwords⟩, hlinks⟩

section Memory

variable {ws : List (Nat × Byte)} {blocks : List Block}

theorem Pages.ascending (h : Pages ws blocks) :
    Ascending (((blocks.map Block.piece).head?.map Piece.addr).getD 0) (blocks.map Block.piece) := by
  refine ascending_pieces (fun b hb => ?_) h.chain
  rw [List.head?_map, Option.map_map, hb]
  exact le_rfl

theorem Pages.near (h : Pages ws blocks) :
    Near (((blocks.map Block.piece).head?.map Piece.addr).getD 0) (blocks.map Block.piece) ↔
      Bridged ws := by
  rw [← h.gaps]
  cases blocks with
  | nil => exact iff_of_true trivial List.isChain_nil
  | cons b blocks =>
      have hnear := near_pieces (h.whole b List.mem_cons_self) h.whole (fun c hc => by
        obtain rfl : b = c := Option.some.inj hc
        exact le_rfl) h.chain
      refine hnear.trans (and_iff_right fun p hp => ?_)
      obtain rfl : b.addr = p := Option.some.inj hp
      exact Nat.le_add_right _ _

/-- **The pages, in a memory.** -/
theorem Pages.place_eq (h : Pages ws blocks) (mem : Nat → Byte) (a : Nat) :
    place (blocks.map Block.piece) mem a =
      if Touched ws a then (latest ws a).getD 0xFF else mem a := by
  split
  · rename_i ht
    obtain ⟨b, hb, haddr⟩ := (h.touched a).mpr ht
    have hin : some (place (blocks.map Block.piece) mem a) = b.piece.data[a - b.piece.addr]? :=
      place_inside h.ascending (List.mem_map_of_mem hb)
        ((Block.covers_piece (h.whole b hb)).mpr haddr)
    have hmod : a - b.addr = a % 256 := by
      have := pageOf_add_mod a
      omega
    have hback : b.addr + a % 256 = a := by
      rw [haddr, pageOf_add_mod]
    have hbyte := h.bytes b hb (a % 256) (Nat.mod_lt a (by decide))
    rw [hback] at hbyte
    rw [show b.piece.data = b.bytes from rfl, show b.piece.addr = b.addr from rfl, hmod, hbyte] at hin
    exact Option.some.inj hin
  · rename_i hno
    refine place_outside fun p hp hc => hno ?_
    obtain ⟨b, hb, rfl⟩ := List.mem_map.mp hp
    exact (h.touched a).mp ⟨b, hb, (Block.covers_piece (h.whole b hb)).mp hc⟩

end Memory

/-! ### The conversion -/

/-- What `Block.encode` makes. -/
theorem Block.encodes {familyid : Int} {b : Block} {blockno numblocks : Nat} {block : List Byte}
    (h : b.encode familyid blockno numblocks = some block) :
    Encodes familyid b.addr b.bytes block := by
  simp only [Block.encode, Option.bind_eq_bind, Option.bind_eq_some_iff] at h
  obtain ⟨hd, hhd, magic, hmagic, hret⟩ := h
  have htake : b.bytes.take 256 = b.bytes := List.take_of_length_le b.length_eq.le
  have hlen : hd.length = 32 := length_blockHeader hhd
  obtain rfl := Option.some.inj hret
  have hrest : (List.replicate (512 - 4 - (hd ++ b.bytes.take 256).length) 0 ++ magic).length =
      224 := by
    rw [List.length_append, (pack32_eq_some hmagic).2.1, List.length_replicate, List.length_append,
      htake, hlen, b.length_eq]
  have hblock := encodes_block hhd b.length_eq hrest
  rw [htake] at hblock ⊢
  rwa [← List.append_assoc] at hblock

theorem encoded_blocks {familyid : Int} {blocks : List Block} {n : Nat} {resfile : List (List Byte)}
    (h : blocks.zipIdx.mapM (fun b => b.1.encode familyid b.2 n) = some resfile) :
    Encoded familyid (blocks.map Block.piece) resfile.flatten := by
  refine ⟨resfile, rfl, ?_⟩
  have hall := (mapM_some h).imp fun b block hb => Block.encodes hb
  have hfst : blocks.map Block.piece = blocks.zipIdx.map fun b => b.1.piece :=
    calc blocks.map Block.piece = (blocks.zipIdx.map Prod.fst).map Block.piece := by
          rw [List.zipIdx_map_fst]
      _ = blocks.zipIdx.map fun b => b.1.piece := List.map_map
  rw [hfst, List.forall₂_map_left_iff]
  exact hall

/-- When a block can be encoded. -/
theorem Block.encode_isSome {familyid : Int} {b : Block} {blockno numblocks : Nat} :
    (b.encode familyid blockno numblocks).isSome = true ↔
      (blockHeader familyid b.addr blockno numblocks).isSome = true := by
  obtain ⟨magic, hmagic⟩ : ∃ bs, pack32 uf2MagicEnd = some bs := ⟨_, if_pos (by decide)⟩
  rw [Block.encode, hmagic]
  cases blockHeader familyid b.addr blockno numblocks <;> rfl

/-- Pages one after the other do not fit in below the last more often than it allows. -/
theorem length_of_following {p q : Nat} {ps : List Nat} (h : (p :: ps).IsChain Following)
    (hq : (p :: ps).getLast? = some q) : p + 256 * ps.length ≤ q := by
  induction ps generalizing p with
  | nil =>
      obtain rfl : p = q := Option.some.inj hq
      exact le_rfl
  | cons r ps ih =>
      rw [List.getLast?_cons_cons] at hq
      have hrest := ih h.tail hq
      have hfollow : p + 256 ≤ r := (List.isChain_cons_cons.mp h).1
      calc p + 256 * (ps.length + 1) = p + 256 + 256 * ps.length := by ring
        _ ≤ r + 256 * ps.length := Nat.add_le_add_right hfollow _
        _ ≤ q := hrest

theorem Pages.length_le {ws : List (Nat × Byte)} {blocks : List Block} (h : Pages ws blocks)
    (hword : ∀ b ∈ blocks, b.addr < 2 ^ 32) : blocks.length ≤ 2 ^ 24 := by
  cases blocks with
  | nil => exact Nat.zero_le _
  | cons b blocks =>
      obtain ⟨c, hc⟩ : ∃ c, (b :: blocks).getLast? = some c :=
        ⟨_, List.getLast?_eq_some_getLast (List.cons_ne_nil b blocks)⟩
      have hlast : (b.addr :: blocks.map Block.addr).getLast? = some c.addr := by
        rw [← List.map_cons, List.getLast?_map, hc]
        rfl
      have hcount := length_of_following h.chain hlast
      have hlt : c.addr < 2 ^ 32 := hword c (List.mem_of_getLast? hc)
      rw [List.length_map] at hcount
      have hle : 256 * blocks.length < 256 * 2 ^ 24 := by omega
      exact Nat.lt_of_mul_lt_mul_left hle

/-- A HEX file is not taken for a UF2 file. -/
theorem isUf2_of_isHex {buf : List Byte} (hlen : 8 ≤ buf.length) (h : isHex buf = true) :
    isUf2 buf = some false := by
  have hcolon : buf.head? = some 0x3A := by
    rw [isHex, Bool.and_eq_true, beq_iff_eq] at h
    exact h.1
  obtain ⟨rest, rfl⟩ : ∃ rest, buf = 0x3A :: rest := List.head?_eq_some_iff.mp hcolon
  rw [isUf2, if_neg (not_lt.mpr hlen)]
  refine congrArg some (decide_eq_false fun hmagic => ?_)
  have hword : word (0x3A :: rest) 0 = 0x3A + 256 * leValue (rest.take 3) := rfl
  have hfirst := hmagic.1
  rw [hword, uf2MagicStart0] at hfirst
  omega

theorem convert_hex {base familyid : Int} {buf : List Byte} (hlen : 8 ≤ buf.length)
    (h : isHex buf = true) : convert base familyid buf =
      (convertFromHexToUf2 familyid buf).bind fun r => r.2.map fun start : Nat =>
        (.uf2, r.1, (start : Int)) := by
  rw [convert, isUf2_of_isHex hlen h, Option.bind_eq_bind, Option.bind_some, if_neg (by decide), h,
    if_pos rfl]
  cases convertFromHexToUf2 familyid buf with
  | none => rfl
  | some r =>
      rw [Option.bind_eq_bind, Option.bind_some, Option.bind_some]
      cases r.2 <;> rfl

/-- The blocks are encoded exactly when the family and the pages are words. -/
theorem Pages.encode_isSome {familyid : Int} {ws : List (Nat × Byte)} {blocks : List Block}
    (h : Pages ws blocks) (hne : ws ≠ []) :
    (blocks.zipIdx.mapM fun b : Block × Nat => b.1.encode familyid b.2 blocks.length).isSome = true ↔
      (0 ≤ familyid ∧ familyid < 2 ^ 32) ∧ ∀ w ∈ ws, pageOf w.1 < 2 ^ 32 := by
  have each : (∀ w ∈ ws, pageOf w.1 < 2 ^ 32) ↔ ∀ b ∈ blocks, b.addr < 2 ^ 32 := by
    constructor
    · intro hw b hb
      obtain ⟨w, hmem, hpage⟩ := (h.touched b.addr).mp ⟨b, hb, (h.whole b hb).symm⟩
      rw [← h.whole b hb, ← hpage]
      exact hw w hmem
    · intro hb w hw
      obtain ⟨b, hmem, hpage⟩ := (h.touched w.1).mpr ⟨w, hw, rfl⟩
      rw [← hpage]
      exact hb b hmem
  rw [mapM_isSome, each]
  simp only [Block.encode_isSome, blockHeader_isSome]
  constructor
  · intro hall
    have hblocks : blocks ≠ [] := fun hnil => by
      obtain ⟨w, hw⟩ := List.exists_mem_of_ne_nil ws hne
      obtain ⟨b, hb, -⟩ := (h.touched w.1).mpr ⟨w, hw, rfl⟩
      rw [hnil] at hb
      exact absurd hb List.not_mem_nil
    obtain ⟨b, hb⟩ := List.exists_mem_of_ne_nil blocks hblocks
    obtain ⟨i, hi⟩ := List.mem_iff_getElem?.mp hb
    refine ⟨(hall (b, i) (List.mk_mem_zipIdx_iff_getElem?.mpr hi)).1, fun b hb => ?_⟩
    obtain ⟨i, hi⟩ := List.mem_iff_getElem?.mp hb
    exact_mod_cast (hall (b, i) (List.mk_mem_zipIdx_iff_getElem?.mpr hi)).2.1.2
  · rintro ⟨hfamily, hwords⟩ ⟨b, i⟩ hbi
    have hcount := h.length_le hwords
    have hi := List.mk_mem_zipIdx_iff_getElem?.mp hbi
    have hlt := (List.getElem?_eq_some_iff.mp hi).1
    have hword := hwords b (List.mem_of_getElem? hi)
    refine ⟨hfamily, ⟨Int.natCast_nonneg _, by exact_mod_cast hword⟩, ?_, ?_⟩
    · exact (hlt.trans_le hcount).trans (by decide)
    · exact hcount.trans_lt (by decide)

/-- **The conversion of a HEX file**, when its lines say something. -/
theorem convertFromHex_eq {familyid : Int} {buf : List Byte} {ws : List (Nat × Byte)}
    (hw : writes (buf.splitOn 0x0A) 0 = some ws) (hne : ws ≠ []) :
    ∃ start : Nat, convertFromHexToUf2 familyid buf =
      (((putAll [] ws).zipIdx.mapM fun b : Block × Nat =>
        b.1.encode familyid b.2 (putAll [] ws).length).map fun r => (r.flatten, some start)) := by
  rcases hexLines_writes (buf.splitOn 0x0A) ⟨none, 0, []⟩ with
    ⟨hnone, -⟩ | ⟨ws', st, hws, hlines, hblocks, hstart⟩
  · rw [hw] at hnone
    cases hnone
  · obtain rfl : ws = ws' := Option.some.inj (hw.symm.trans hws)
    obtain ⟨start, hst⟩ := Option.ne_none_iff_exists'.mp (hstart (Or.inl hne))
    have hblocks : st.blocks = putAll [] ws := hblocks
    refine ⟨start, ?_⟩
    rw [convertFromHexToUf2, hlines, Option.bind_eq_bind, Option.bind_some, hblocks, hst]
    cases (putAll [] ws).zipIdx.mapM fun b : Block × Nat =>
      b.1.encode familyid b.2 (putAll [] ws).length <;> rfl

/-- The value that a HEX file leaves at an address, with `rest` where it says nothing. -/
def valueAt (ws : List (Nat × Byte)) (rest : Byte) (a : Nat) : Byte :=
  if Touched ws a then (latest ws a).getD 0xFF else rest

/-- **The conversion of an Intel HEX file.**  A file that goes from page to page upwards is converted
exactly when the family and the pages are words.  The result leaves the bytes of the file in a memory,
the last one for each address, and `0xFF` in the rest of their pages; the other pages stay.  With the
same family or with none, it is converted back exactly when no gap between two pages is too long, and
then to the same over zeros, from the first page to the end of the last. -/
theorem hex_image {base base' familyid g : Int} {buf : List Byte} {ws : List (Nat × Byte)}
    (hlen : 8 ≤ buf.length) (hhex : isHex buf = true)
    (hw : writes (buf.splitOn 0x0A) 0 = some ws) (hne : ws ≠ []) (hup : Upward ws)
    (hg : g = 0 ∨ g = familyid) :
    ((∃ r, convert base familyid buf = some r) ↔
      (0 ≤ familyid ∧ familyid < 2 ^ 32) ∧ ∀ w ∈ ws, pageOf w.1 < 2 ^ 32) ∧
      ∀ kind out start, convert base familyid buf = some (kind, out, start) →
        kind = .uf2 ∧
          (∀ mem a, place (piecesOf (blocksOf out)) mem a = valueAt ws (mem a) a) ∧
          ((∃ r, convert base' g out = some r) ↔ Bridged ws) ∧
          ∀ kind' data start', convert base' g out = some (kind', data, start') →
            kind' = .bin ∧ start' = pageOf (ws.head hne).1 ∧
              pageOf (ws.head hne).1 + data.length = pageOf (ws.getLast hne).1 + 256 ∧
              ∀ i < data.length,
                data[i]? = some (valueAt ws 0 (pageOf (ws.head hne).1 + i)) := by
  have hpages := pages_putAll hup
  obtain ⟨entry, hconvert⟩ := @convertFromHex_eq familyid buf ws hw hne
  rw [convert_hex hlen hhex, hconvert]
  constructor
  · rw [← hpages.encode_isSome hne, Option.isSome_iff_exists]
    constructor
    · rintro ⟨r, hr⟩
      obtain ⟨r', hr', -⟩ := Option.bind_eq_some_iff.mp hr
      obtain ⟨resfile, hres, -⟩ := Option.map_eq_some_iff.mp hr'
      exact ⟨resfile, hres⟩
    · rintro ⟨resfile, hres⟩
      exact ⟨_, by rw [hres]; rfl⟩
  · intro kind out start hr
    obtain ⟨r, hr, hstart⟩ := Option.bind_eq_some_iff.mp hr
    obtain ⟨resfile, hres, rfl⟩ := Option.map_eq_some_iff.mp hr
    obtain ⟨rfl, hrest⟩ := Prod.mk.inj (Option.some.inj hstart)
    obtain ⟨rfl, -⟩ := Prod.mk.inj hrest
    dsimp only
    have henc := encoded_blocks hres
    have hplace : ∀ mem a, place ((putAll [] ws).map Block.piece) mem a = valueAt ws (mem a) a :=
      hpages.place_eq
    have hhead : ((putAll [] ws).map Block.piece).head?.map Piece.addr =
        some (pageOf (ws.head hne).1) := by
      have hfirst := hpages.first
      rw [List.head?_eq_some_head hne] at hfirst
      rw [List.head?_map, Option.map_map]
      exact hfirst
    have hlast : stopOf (pageOf (ws.head hne).1) ((putAll [] ws).map Block.piece) =
        pageOf (ws.getLast hne).1 + 256 := by
      have hlast := hpages.last
      rw [List.getLast?_eq_some_getLast hne] at hlast
      obtain ⟨b, hb, haddr⟩ := Option.map_eq_some_iff.mp hlast
      rw [stopOf, List.getLast?_map, hb]
      exact b.stop_piece.trans (congrArg (· + 256) haddr)
    have hpieces : (putAll [] ws).map Block.piece ≠ [] := fun h => by
      rw [h] at hhead
      cases hhead
    have hstart : (((putAll [] ws).map Block.piece).head?.map fun p => (p.addr : Int)) =
        some (pageOf (ws.head hne).1 : Int) := by
      have hcast := congrArg (Option.map fun n : Nat => (n : Int)) hhead
      rw [Option.map_map] at hcast
      exact hcast
    have hnear := hpages.near
    have hasc := hpages.ascending
    rw [hhead, Option.getD_some] at hnear hasc
    have hback : ∀ r, convertFromUf2 base' g resfile.flatten = some r ↔ Bridged ws ∧
        (assemble 0 (pageOf (ws.head hne).1) ((putAll [] ws).map Block.piece),
          (pageOf (ws.head hne).1 : Int)) = r := by
      intro r
      rw [henc.decode hg, hhead, hstart, Option.getD_some, Option.getD_some, hnear]
    refine ⟨rfl, ?_, ?_, ?_⟩
    · rw [henc.piecesOf]
      exact hplace
    · rw [convert_uf2 (henc.isUf2 hpieces)]
      constructor
      · rintro ⟨r, hr⟩
        obtain ⟨r', hr', -⟩ := Option.map_eq_some_iff.mp hr
        exact ((hback r').mp hr').1
      · intro hbridged
        exact ⟨_, Option.map_eq_some_iff.mpr ⟨_, (hback _).mpr ⟨hbridged, rfl⟩, rfl⟩⟩
    · intro kind' data start' hr
      rw [convert_uf2 (henc.isUf2 hpieces)] at hr
      obtain ⟨r', hr', hmade⟩ := Option.map_eq_some_iff.mp hr
      obtain ⟨-, rfl⟩ := (hback r').mp hr'
      obtain ⟨rfl, hrest⟩ := Prod.mk.inj hmade
      obtain ⟨rfl, rfl⟩ := Prod.mk.inj hrest
      refine ⟨rfl, rfl, (length_assemble hasc).trans hlast, fun i hi => ?_⟩
      rw [getElem?_assemble hasc hi, hplace]

/-- `:0200FF00AABB9A`, a record across the border of two pages, then `:020000040100F9` and
`:01000000CC33`, a byte 16 megabytes on, and the end. -/
def hexFile : List Byte :=
  [0x3A, 0x30, 0x32, 0x30, 0x30, 0x46, 0x46, 0x30, 0x30, 0x41, 0x41, 0x42, 0x42, 0x39, 0x41, 0x0A,
    0x3A, 0x30, 0x32, 0x30, 0x30, 0x30, 0x30, 0x30, 0x34, 0x30, 0x31, 0x30, 0x30, 0x46, 0x39, 0x0A,
    0x3A, 0x30, 0x31, 0x30, 0x30, 0x30, 0x30, 0x30, 0x30, 0x43, 0x43, 0x33, 0x33, 0x0A,
    0x3A, 0x30, 0x30, 0x30, 0x30, 0x30, 0x30, 0x30, 0x31, 0x46, 0x46, 0x0A]

/-- Three pages, which replace what the memory has.  The gap before the last is too long for the way
back. -/
theorem hex_image_border : ∃ out start,
    convert 0x2000 0xe48bff59 hexFile = some (.uf2, out, start) ∧
      place (piecesOf (blocksOf out)) (fun _ => 7) 0xFF = 0xAA ∧
      place (piecesOf (blocksOf out)) (fun _ => 7) 0x100 = 0xBB ∧
      place (piecesOf (blocksOf out)) (fun _ => 7) 0x101 = 0xFF ∧
      place (piecesOf (blocksOf out)) (fun _ => 7) 0x200 = 7 ∧
      place (piecesOf (blocksOf out)) (fun _ => 7) 0x1000000 = 0xCC ∧
      ¬∃ r, convert 0x2000 0 out = some r := by
  obtain ⟨hok, himage⟩ := @hex_image 0x2000 0x2000 0xe48bff59 0 hexFile
    [(0xFF, 0xAA), (0x100, 0xBB), (0x1000000, 0xCC)]
    (by decide) (by decide) (by decide) (by decide) (by unfold Upward; decide) (Or.inl rfl)
  obtain ⟨r, hr⟩ := hok.mpr (by decide)
  obtain ⟨hkind, hplace, hback, -⟩ := himage r.1 r.2.1 r.2.2 hr
  refine ⟨r.2.1, r.2.2, hkind ▸ hr, ?_⟩
  rw [hback, hplace, hplace, hplace, hplace, hplace]
  unfold Bridged Bridges
  decide

end Uf2
