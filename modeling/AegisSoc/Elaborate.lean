/-
The emission of the SoC (`elaborate/package.scala`). The compiler hands back one text: the primary module, and behind it the
other files, each under a marker line with its name. `EmitSupport` writes the tree again.

The model has the functions of the source on a text as a list of characters: `indexOf` and the substrings are
`List.dropInfix?`, `split` with a look-ahead is `Delimited.cut`, and `Marker` is matched as `java.util.regex` does it, with `^`
at the beginning and after every line terminator, and `$` before one or at the end.

Results:
- `emit_exact`: what is written for any text at all: the text up to the first delimiter, and of each further piece a file, if
  and only if its marker is well formed. A piece under a malformed marker is dropped without a word;
- `emit_render`: a tree that the format can hold is written back as it was.

Not modelled: the compiler itself, and what the file system makes of names (two names of one file, a failing write).
-/
import AegisSoc.Lib.Delimited
import Mathlib.Data.List.TakeWhile

namespace AegisSoc.EmitSupport

open Delimited

abbrev Text := List Char

/-- the double quote -/
def quote : Char := Char.ofNat 34

/-- `// ----- 8< ----- FILE "` -/
def Delim : Text :=
  ['/', '/', ' ', '-', '-', '-', '-', '-', ' ', '8', '<', ' ', '-', '-', '-', '-', '-', ' ', 'F', 'I', 'L', 'E', ' ', quote]

/-- `" ----- 8< -----`, the rest of a marker behind the name -/
def closing : Text := [quote, ' ', '-', '-', '-', '-', '-', ' ', '8', '<', ' ', '-', '-', '-', '-', '-']

/-! ## `Marker` -/

/-- the line terminators of `java.util.regex` -/
def isTerminator (c : Char) : Bool := c = '\n' || c = '\r' || c.toNat = 0x85 || c.toNat = 0x2028 || c.toNat = 0x2029

/-- the characters of `\s` that end no line -/
def isBlank (c : Char) : Bool := c = ' ' || c = '\t' || c.toNat = 0x0B || c.toNat = 0x0C

/-- `\s*$`: the star gives back what it took of the line terminators -/
def lineEnds (t : Text) : Bool :=
  match t.dropWhile isBlank with
  | [] => true
  | c :: _ => isTerminator c

/-- `Marker` at the beginning of `t`, and its group 1 -/
def markerAt (t : Text) : Option Text := do
  let s ← t.dropPrefix? Delim
  let rel := s.takeWhile (· ≠ quote)
  let e ← (s.dropWhile (· ≠ quote)).dropPrefix? closing
  if rel ≠ [] ∧ lineEnds e then some rel else none

/-- `Marker.findFirstMatchIn`; `bol` is the anchor `^` -/
def findFirstMatchIn (bol : Bool) : Text → Option Text
  | [] => none
  | c :: t => (if bol then markerAt (c :: t) else none).or (findFirstMatchIn (isTerminator c) t)

/-! ## `emitAndSplitAndWritePrimary` -/

/-- `seg.substring(seg.indexOf("\n") + 1)`; the index of a missing line feed is -1 -/
def body (seg : Text) : Text :=
  match seg.dropInfix? ['\n'] with
  | some (_, rest) => rest
  | none => seg

/-- the file of a segment -/
def file (seg : Text) : Option (Text × Text) := (findFirstMatchIn true seg).map fun rel => (rel, body seg)

/-- the files that are written, in order -/
def emitAndSplitAndWritePrimary (primaryName verilog : Text) : List (Text × Text) :=
  match verilog.dropInfix? Delim with
  | none => [(primaryName, verilog)]
  | some (header, rest) => (primaryName, header) :: (cut Delim (Delim ++ rest)).filterMap file

theorem delim_borderFree : BorderFree Delim := by decide

theorem delim_ne_nil : Delim ≠ [] := by decide

/-! ## One segment -/

/-- a well-formed marker with the name `rel` -/
structure Marked (rel t : Text) : Prop where
  named : rel ≠ []
  unquoted : quote ∉ rel
  line : ∃ e, t = Delim ++ (rel ++ (closing ++ e)) ∧ lineEnds e = true

theorem markerAt_eq_some_iff {rel t : Text} : markerAt t = some rel ↔ Marked rel t := by
  constructor
  · intro h
    obtain ⟨s, hs, h⟩ := Option.bind_eq_some_iff.1 h
    obtain ⟨e, he, h⟩ := Option.bind_eq_some_iff.1 h
    obtain ⟨⟨hne, hend⟩, h⟩ := Option.ite_none_right_eq_some.1 h
    obtain rfl := Option.some.inj h
    obtain ⟨p, rfl, hp⟩ := List.dropPrefix?_eq_some_iff.1 hs
    obtain ⟨c, hc, hclose⟩ := List.dropPrefix?_eq_some_iff.1 he
    obtain rfl := eq_of_beq hp
    obtain rfl := eq_of_beq hclose
    refine ⟨hne, fun hmem => ?_, e, ?_, hend⟩
    · simpa using List.mem_takeWhile_imp hmem
    · rw [← hc, List.takeWhile_append_dropWhile]
  · rintro ⟨hne, hq, e, rfl, hend⟩
    have hrel : ∀ c ∈ rel, decide (c ≠ quote) = true := fun c hc => decide_eq_true fun heq => hq (heq ▸ hc)
    have htake : (rel ++ (closing ++ e)).takeWhile (· ≠ quote) = rel := by
      rw [List.takeWhile_append_of_pos hrel]
      simp [closing]
    have hdrop : (rel ++ (closing ++ e)).dropWhile (· ≠ quote) = closing ++ e := by
      rw [List.dropWhile_append_of_pos hrel]
      simp [closing]
    refine Option.bind_eq_some_iff.2 ⟨_, List.dropPrefix?_eq_some_iff.2 ⟨Delim, rfl, beq_self_eq_true _⟩, ?_⟩
    refine Option.bind_eq_some_iff.2 ⟨e, List.dropPrefix?_eq_some_iff.2 ⟨closing, hdrop, beq_self_eq_true _⟩, ?_⟩
    rw [htake, if_pos ⟨hne, hend⟩]

theorem findFirstMatchIn_eq_none {bol : Bool} {t : Text} (h : ∀ u, u <:+ t → ¬ Delim <+: u) :
    findFirstMatchIn bol t = none := by
  induction t generalizing bol with
  | nil => rfl
  | cons c t ih =>
    have hmark : markerAt (c :: t) = none := Option.eq_none_iff_forall_ne_some.2 fun rel hrel => by
      obtain ⟨e, he, -⟩ := (markerAt_eq_some_iff.1 hrel).line
      exact h _ List.suffix_rfl (he ▸ List.prefix_append _ _)
    rw [findFirstMatchIn, hmark, ih fun u hu => h u (hu.trans (List.suffix_cons _ _))]
    cases bol <;> rfl

/-- a segment can match at its beginning only -/
theorem findFirstMatchIn_segment {b : Text} (hb : ¬ Delim <:+: b) :
    findFirstMatchIn true (Delim ++ b) = markerAt (Delim ++ b) := by
  obtain ⟨c, t, ht⟩ : ∃ c t, Delim ++ b = c :: t := ⟨_, _, rfl⟩
  have hrest : findFirstMatchIn (isTerminator c) t = none := findFirstMatchIn_eq_none fun u hu => by
    have hlen := hu.length_le
    refine not_prefix_suffix delim_borderFree hb (ht ▸ hu.trans (List.suffix_cons _ _)) fun heq => ?_
    simp [heq, ht] at hlen
  rw [ht, findFirstMatchIn, hrest, if_pos rfl, Option.or_none]

/-- what follows the first line feed, or everything if there is none -/
def Body (seg content : Text) : Prop :=
  ('\n' ∉ seg ∧ content = seg) ∨ ∃ line, '\n' ∉ line ∧ seg = line ++ '\n' :: content

theorem body_of {seg content : Text} (h : Body seg content) : body seg = content := by
  rcases h with ⟨hno, rfl⟩ | ⟨line, hline, rfl⟩
  · rw [body, dropInfix_eq_none ((List.singleton_infix_iff _ _).not.2 hno)]
  · have hone : line ++ '\n' :: content = line ++ join ['\n'] [content] := by simp [join]
    rw [body, hone, dropInfix_join (by decide) ((List.singleton_infix_iff _ _).not.2 hline)]
    exact List.append_nil content

theorem body_spec (seg : Text) : Body seg (body seg) := by
  by_cases hmem : '\n' ∈ seg
  · obtain ⟨line, content, rfl, hline⟩ := List.eq_append_cons_of_mem hmem
    have hbody : Body (line ++ '\n' :: content) content := .inr ⟨line, hline, rfl⟩
    rwa [body_of hbody]
  · have hbody : Body seg seg := .inl ⟨hmem, rfl⟩
    rwa [body_of hbody]

theorem file_eq_some_iff {b rel content : Text} (hb : ¬ Delim <:+: b) :
    file (Delim ++ b) = some (rel, content) ↔ Marked rel (Delim ++ b) ∧ Body (Delim ++ b) content := by
  rw [file, findFirstMatchIn_segment hb, Option.map_eq_some_iff]
  constructor
  · rintro ⟨rel', hrel, heq⟩
    obtain ⟨rfl, rfl⟩ := Prod.mk.inj heq
    exact ⟨markerAt_eq_some_iff.1 hrel, body_spec _⟩
  · rintro ⟨hmark, hbody⟩
    exact ⟨rel, markerAt_eq_some_iff.2 hmark, by rw [body_of hbody]⟩

/-! ## The whole text -/

theorem emit_join {header : Text} {bs : List Text} (primaryName : Text) (hh : ¬ Delim <:+: header)
    (hbs : ∀ b ∈ bs, ¬ Delim <:+: b) : emitAndSplitAndWritePrimary primaryName (header ++ join Delim bs) =
      (primaryName, header) :: bs.filterMap fun b => file (Delim ++ b) := by
  cases bs with
  | nil =>
    rw [join, List.flatMap_nil, List.append_nil, emitAndSplitAndWritePrimary, dropInfix_eq_none hh]
    rfl
  | cons b bs =>
    rw [emitAndSplitAndWritePrimary, dropInfix_join delim_borderFree hh]
    simp only [← List.append_assoc]
    rw [← join_cons, cut_join delim_borderFree delim_ne_nil hbs, List.filterMap_map]
    rfl

/-- **What is written for any text.** The text is cut at the delimiters, every cut is used, and a piece becomes a file exactly
if its marker is well formed. -/
theorem emit_exact (primaryName verilog : Text) :
    ∃ header bs, verilog = header ++ join Delim bs ∧ ¬ Delim <:+: header ∧ (∀ b ∈ bs, ¬ Delim <:+: b) ∧
      emitAndSplitAndWritePrimary primaryName verilog = (primaryName, header) :: bs.filterMap (fun b => file (Delim ++ b)) ∧
      ∀ b ∈ bs, ∀ rel content, file (Delim ++ b) = some (rel, content) ↔
        Marked rel (Delim ++ b) ∧ Body (Delim ++ b) content := by
  obtain ⟨header, bs, rfl, hh, hbs⟩ := exists_join delim_ne_nil verilog
  exact ⟨header, bs, rfl, hh, hbs, emit_join primaryName hh hbs, fun b hb _ _ => file_eq_some_iff (hbs b hb)⟩

-- without its closing a marker names no file, and what stands under it is lost
example : emitAndSplitAndWritePrimary ['A'] (['m', '\n'] ++ Delim ++ ['l', '\n', 'e']) = [(['A'], ['m', '\n'])] := by decide

/-! ## Trees that the format can hold -/

/-- a file whose name fits into a marker and whose content has none -/
structure Source where
  name : Text
  content : Text
  named : name ≠ []
  unquoted : quote ∉ name
  oneLine : '\n' ∉ name
  noMarker : ¬ Delim <:+: name ++ [quote]
  inert : ¬ Delim <:+: content

def Source.entry (f : Source) : Text := f.name ++ (closing ++ '\n' :: f.content)

/-- the text of a tree -/
def render (header : Text) (files : List Source) : Text := header ++ join Delim (files.map Source.entry)

theorem Source.entry_free (f : Source) : ¬ Delim <:+: f.entry := by
  intro h
  rw [Source.entry, ← List.append_assoc] at h
  rcases infix_append_cons (by decide) h with h | h
  · -- the closing has one quote, its first character
    have hquote : f.name ++ closing = f.name ++ [quote] ++ closing.tail := by simp [closing]
    rw [hquote] at h
    exact f.noMarker (infix_of_append_right (d := Delim.dropLast) (c := quote) (by decide) h)
  · exact f.inert h

theorem Source.file_entry (f : Source) : file (Delim ++ f.entry) = some (f.name, f.content) := by
  refine (file_eq_some_iff f.entry_free).2 ⟨⟨f.named, f.unquoted, _, rfl, rfl⟩, .inr ⟨Delim ++ (f.name ++ closing), ?_, ?_⟩⟩
  · intro hmem
    rcases List.mem_append.1 hmem with h | h
    · exact absurd h (by decide)
    · rcases List.mem_append.1 h with h | h
      · exact f.oneLine h
      · exact absurd h (by decide)
  · simp [Source.entry]

/-- **The tree comes back.** -/
theorem emit_render (primaryName header : Text) (hh : ¬ Delim <:+: header) (files : List Source) :
    emitAndSplitAndWritePrimary primaryName (render header files) =
      (primaryName, header) :: files.map fun f => (f.name, f.content) := by
  have hfree : ∀ b ∈ files.map Source.entry, ¬ Delim <:+: b := by
    intro b hb
    obtain ⟨f, -, rfl⟩ := List.mem_map.1 hb
    exact f.entry_free
  rw [render, emit_join primaryName hh hfree, List.filterMap_map, ← List.filterMap_eq_map]
  congr 1
  exact List.filterMap_congr fun f _ => f.file_entry

/-- a file of one line -/
def layer : Source where
  name := ['l', '.', 's', 'v']
  content := ['e', '\n']
  named := by decide
  unquoted := by decide
  oneLine := by decide
  noMarker := by decide
  inert := by decide

theorem emit_render_layer : emitAndSplitAndWritePrimary ['A'] (render ['m', '\n'] [layer]) =
    [(['A'], ['m', '\n']), (['l', '.', 's', 'v'], ['e', '\n'])] :=
  emit_render ['A'] ['m', '\n'] (by decide) [layer]

end AegisSoc.EmitSupport
