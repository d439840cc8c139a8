import EdgeFleet.KeyMap.Lemmas
import EdgeFleet.Proofs.Text.Numerals
import EdgeFleet.Proofs.Toml.Quoted
import EdgeFleet.Toml.Reader
import EdgeFleet.Toml.Writer
import Mathlib.Data.List.Forall2
import Mathlib.Data.List.Nodup

/-! # Written tables read back

The text of a document is read line by line into the lines it was written from, and these make up a
table of tables.
-/

namespace EdgeFleet.Toml

/-! ## Parts of a line -/

theorem takeWhile_append_stop {p : Char → Bool} {front rest : List Char} (hfront : ∀ c ∈ front, p c = true)
    (hrest : ∀ c, rest.head? = some c → p c = false) :
    (front ++ rest).takeWhile p = front ∧ (front ++ rest).dropWhile p = rest := by
  rw [List.takeWhile_append_of_pos hfront, List.dropWhile_append_of_pos hfront]
  cases rest with
  | nil => simp
  | cons c cs => simp [hrest c rfl]

theorem skipBlanks_cons {c : Char} (h : isBlank c = false) (cs : List Char) : skipBlanks (c :: cs) = c :: cs :=
  List.dropWhile_cons_of_neg (by simp [h])

theorem formAt?_cons_eq_none {c : Char} (h : c ≠ '"' ∧ c ≠ '\'') (cs : List Char) : formAt? (c :: cs) = none := by
  have hnot : ∀ f : Form, f.quote = '"' ∨ f.quote = '\'' → f.delimiter.isPrefixOf (c :: cs) = false := by
    intro f hf
    refine isPrefixOf_delimiter_of_ne ?_
    rcases hf with hf | hf <;> rw [hf]
    exacts [Ne.symm h.1, Ne.symm h.2]
  simp [formAt?, hnot Form.longBasic (.inl rfl), hnot Form.basic (.inl rfl), hnot Form.longLiteral (.inr rfl),
    hnot Form.literal (.inr rfl)]

/-! ### Keys -/

/-- A key that is written without quotes. -/
def IsWord (key : String) : Prop := key.toList ≠ [] ∧ ∀ c ∈ key.toList, isKeyChar c = true

instance (key : String) : Decidable (IsWord key) :=
  @instDecidableAnd _ _ inferInstance (List.decidableBAll _ key.toList)

theorem not_mem_of_isKeyChar {c : Char} (h : isKeyChar c = true) :
    c ∉ ['"', '\'', ' ', '\t', '[', ']', '.', '=', '#', '\n', '\r', '\uFEFF'] := by
  intro hmem
  simp only [List.mem_cons, List.not_mem_nil, or_false] at hmem
  rcases hmem with rfl | rfl | rfl | rfl | rfl | rfl | rfl | rfl | rfl | rfl | rfl | rfl <;>
    exact absurd h (by decide)

theorem IsWord.exists_cons {key : String} (h : IsWord key) :
    ∃ c cs, key.toList = c :: cs ∧ c ∉ ['"', '\'', ' ', '\t', '[', ']', '.', '=', '#', '\n', '\r', '\uFEFF'] := by
  obtain ⟨c, cs, hkey⟩ := List.exists_cons_of_ne_nil h.1
  exact ⟨c, cs, hkey, not_mem_of_isKeyChar (h.2 c (by simp [hkey]))⟩

/-- A word is read as a path of one key, up to what cannot go on with it. -/
theorem path?_word {key : String} (h : IsWord key) {rest : List Char}
    (hrest : ∀ c, rest.head? = some c → isKeyChar c = false) (hpoint : (skipBlanks rest).head? ≠ some '.') :
    path? (key.toList ++ rest) = some ([key], skipBlanks rest) := by
  obtain ⟨c, cs, hkey, hc⟩ := h.exists_cons
  simp only [List.mem_cons, List.not_mem_nil, or_false, not_or] at hc
  obtain ⟨htake, hdrop⟩ := takeWhile_append_stop h.2 hrest
  have hread : readKey? (key.toList ++ rest) = some (key, rest) := by
    have hnone : formAt? (key.toList ++ rest) = none := by
      rw [hkey]
      exact formAt?_cons_eq_none ⟨hc.1, hc.2.1⟩ _
    simp [readKey?, hnone, htake, hdrop, h.1]
  have hblank : skipBlanks (key.toList ++ rest) = key.toList ++ rest := by
    rw [hkey]
    exact skipBlanks_cons (by simp [isBlank, hc]) _
  have hpath : ∀ fuel, readPath? (fuel + 1) (key.toList ++ rest) = some ([key], skipBlanks rest) := by
    intro fuel
    simp only [readPath?, hblank, hread, Option.bind_eq_bind, Option.bind_some]
    split
    · next heq => simp [heq] at hpoint
    · rfl
  obtain ⟨fuel, hfuel⟩ := Nat.exists_eq_succ_of_ne_zero (show (key.toList ++ rest).length ≠ 0 by simp [hkey])
  rw [path?, hfuel, hpath]
  rfl

/-! ### Values -/

/-- What a written value stands for. -/
def Plain.toToml : Plain → Toml
  | .text s => .text s
  | .nat n => .integer n

theorem readScalar?_quoted (s : String) {rest : List Char}
    (hrest : rest.head? ≠ some '"' ∧ rest.head? ≠ some '\'') :
    readScalar? (quoted s ++ rest) = some (.text s, rest) := by
  have hread := readQuoted?_quoted s hrest
  rw [readScalar?]
  split
  · rw [hread, Option.map_some]
  · next hnone =>
    rw [readQuoted?, hnone] at hread
    cases hread

theorem ungroup?_digits {cs : List Char} (hne : cs ≠ []) (hdigits : ∀ c ∈ cs, Decimal.isDigit c = true) :
    ungroup? Decimal.isDigit cs = some cs := by
  induction cs with
  | nil => exact absurd rfl hne
  | cons c cs ih =>
      obtain ⟨hc, hcs⟩ := List.forall_mem_cons.mp hdigits
      cases cs with
      | nil => simp [ungroup?, hc]
      | cons d ds =>
          have hd : d ≠ '_' := by
            rintro rfl
            exact absurd (hcs '_' (by simp)) (by decide)
          simp [ungroup?, hc, hd, ih (by simp) hcs]

theorem not_mem_of_digits {cs : List Char} (hdigits : ∀ c ∈ cs, Decimal.isDigit c = true) (c : Char)
    (hc : Decimal.isDigit c = false) : c ∉ cs := by
  intro hmem
  simp [hdigits c hmem] at hc

theorem readBased?_digits {cs : List Char} (hdigits : ∀ c ∈ cs, Decimal.isDigit c = true) :
    readBased? cs = none := by
  have hnot := not_mem_of_digits hdigits
  unfold readBased?
  split
  · exact absurd (by simp) (hnot 'x' (by decide))
  · exact absurd (by simp) (hnot 'o' (by decide))
  · exact absurd (by simp) (hnot 'b' (by decide))
  · rfl

theorem takeSign_digits {cs : List Char} (hdigits : ∀ c ∈ cs, Decimal.isDigit c = true) :
    takeSign cs = (false, cs) := by
  have hnot := not_mem_of_digits hdigits
  unfold takeSign
  split
  · exact absurd (by simp) (hnot '-' (by decide))
  · exact absurd (by simp) (hnot '+' (by decide))
  · rfl

theorem readInteger?_digits {n : Nat} (h : n ≤ maxNumber) : readInteger? (Decimal.digits n) = some (n : Int) := by
  have hdigits : ∀ c ∈ Decimal.digits n, Decimal.isDigit c = true := fun c hc => Decimal.isDigit_of_mem_digits hc
  have hzero : ¬((Decimal.digits n).head? = some '0' ∧ Decimal.digits n ≠ ['0']) := by
    rintro ⟨hhead, hne⟩
    obtain ⟨c, hc⟩ := List.length_eq_one_iff.mp (Decimal.head?_digits hhead)
    rw [hc] at hhead hne
    exact hne (by simpa using hhead)
  have hrange : Int64.minValue.toInt ≤ (n : Int) ∧ (n : Int) ≤ Int64.maxValue.toInt := by
    have hmin : Int64.minValue.toInt = -9223372036854775808 := by decide
    have hmax : Int64.maxValue.toInt = 9223372036854775807 := by decide
    rw [maxNumber] at h
    omega
  rw [readInteger?, readBased?_digits hdigits, takeSign_digits hdigits]
  simp [wholeDigits?, hzero, ungroup?_digits (Decimal.digits_ne_nil n) hdigits, Decimal.ofDigits_digits,
    Option.filter, hrange]

theorem isWordChar_of_isDigit {c : Char} (h : Decimal.isDigit c = true) : isWordChar c = true := by
  have hdigit : c.isDigit = true := by
    simpa [Char.isDigit, UInt32.le_iff_toNat_le] using (Decimal.isDigit_iff c).mp h
  simp [isWordChar, Char.isAlphanum, hdigit]

theorem readScalar?_digits {n : Nat} (h : n ≤ maxNumber) (rest : List Char) :
    readScalar? (Decimal.digits n ++ '\n' :: rest) = some (.integer n, '\n' :: rest) := by
  have hdigits : ∀ c ∈ Decimal.digits n, Decimal.isDigit c = true := fun c hc => Decimal.isDigit_of_mem_digits hc
  have hnot := not_mem_of_digits hdigits
  obtain ⟨htake, hdrop⟩ : (Decimal.digits n ++ '\n' :: rest).takeWhile isWordChar = Decimal.digits n ∧
      (Decimal.digits n ++ '\n' :: rest).dropWhile isWordChar = '\n' :: rest :=
    takeWhile_append_stop (fun c hc => isWordChar_of_isDigit (hdigits c hc)) fun c hc => by
      obtain rfl : '\n' = c := by simpa using hc
      decide
  have hletter : Decimal.digits n ≠ "true".toList ∧ Decimal.digits n ≠ "false".toList :=
    ⟨fun heq => hnot 't' (by decide) (by simp [heq]), fun heq => hnot 'f' (by decide) (by simp [heq])⟩
  have hform : formAt? (Decimal.digits n ++ '\n' :: rest) = none := by
    obtain ⟨c, cs, hcs⟩ := List.exists_cons_of_ne_nil (Decimal.digits_ne_nil n)
    rw [hcs]
    refine formAt?_cons_eq_none ⟨?_, ?_⟩ _
    · rintro rfl
      exact hnot '"' (by decide) (by simp [hcs])
    · rintro rfl
      exact hnot '\'' (by decide) (by simp [hcs])
  rw [readScalar?, hform]
  simp only [readWord?, htake, hdrop, if_neg hletter.1, if_neg hletter.2, readInteger?_digits h]

/-- A written value begins with a quote or a digit. -/
theorem Plain.exists_cons {p : Plain} {value : List Char} (h : p.render? = some value) :
    ∃ c cs, value = c :: cs ∧ c ∉ [' ', '\t', '[', '{'] := by
  cases p with
  | text s =>
      obtain rfl : quoted s = value := Option.some.inj h
      obtain ⟨cs, hcs⟩ := exists_quoted_eq_cons s
      refine ⟨_, cs, hcs, ?_⟩
      rcases quote_formOf s.toList with hquote | hquote <;> rw [hquote] <;> decide
  | nat n =>
      obtain ⟨-, rfl⟩ : n ≤ maxNumber ∧ Decimal.digits n = value := by simpa [render?] using h
      obtain ⟨c, cs, hcs⟩ := List.exists_cons_of_ne_nil (Decimal.digits_ne_nil n)
      have hdigit : Decimal.isDigit c = true := Decimal.isDigit_of_mem_digits (n := n) (by simp [hcs])
      refine ⟨c, cs, hcs, fun hmem => ?_⟩
      simp only [List.mem_cons, List.not_mem_nil, or_false] at hmem
      rcases hmem with rfl | rfl | rfl | rfl <;> exact absurd hdigit (by decide)

/-- What begins neither an array nor a table is a scalar. -/
theorem readValue?_cons {c : Char} (h : c ≠ '[' ∧ c ≠ '{') (depth : Nat) (cs : List Char) :
    readValue? depth (c :: cs) = readScalar? (c :: cs) := by
  cases depth with
  | zero => rfl
  | succ depth =>
      unfold readValue?
      split
      · next heq => exact absurd (List.cons.inj heq).1 h.1
      · next heq => exact absurd (List.cons.inj heq).1 h.2
      · rfl

/-- A value is read up to the end of its line. -/
theorem readValue?_plain {p : Plain} {value : List Char} (h : p.render? = some value) (depth : Nat)
    (rest : List Char) : readValue? depth (value ++ '\n' :: rest) = some (p.toToml, '\n' :: rest) := by
  obtain ⟨c, cs, hvalue, hc⟩ := Plain.exists_cons h
  simp only [List.mem_cons, List.not_mem_nil, or_false, not_or] at hc
  have hscalar : readValue? depth (value ++ '\n' :: rest) = readScalar? (value ++ '\n' :: rest) := by
    rw [hvalue, List.cons_append]
    exact readValue?_cons hc.2.2 depth _
  rw [hscalar]
  cases p with
  | text s =>
      obtain rfl : quoted s = value := Option.some.inj h
      exact readScalar?_quoted s (by simp)
  | nat n =>
      obtain ⟨hn, rfl⟩ : n ≤ maxNumber ∧ Decimal.digits n = value := by simpa [Plain.render?] using h
      exact readScalar?_digits hn rest

/-! ## Lines -/

/-- The text is read as the lines, whatever follows it. -/
def Spells (cs : List Char) (lines : List Line) : Prop :=
  ∃ n ≤ cs.length, ∀ fuel rest, readLines? (fuel + n) (cs ++ rest) = (readLines? fuel rest).map (lines ++ ·)

theorem spells_nil : Spells [] [] := ⟨0, Nat.le_refl 0, fun fuel rest => by simp⟩

theorem Spells.append {cs cs' : List Char} {lines lines' : List Line} (h : Spells cs lines)
    (h' : Spells cs' lines') : Spells (cs ++ cs') (lines ++ lines') := by
  obtain ⟨n, hn, hread⟩ := h
  obtain ⟨n', hn', hread'⟩ := h'
  refine ⟨n' + n, by rw [List.length_append]; omega, fun fuel rest => ?_⟩
  rw [← Nat.add_assoc, List.append_assoc, hread, hread', Option.map_map]
  congr 1
  funext ls
  simp

theorem endLine?_break (rest : List Char) : endLine? ('\n' :: rest) = some rest := by
  rw [endLine?, skipBlanks_cons (by decide)]
  rfl

theorem spells_break : Spells ['\n'] [] := by
  refine ⟨1, Nat.le_refl 1, fun fuel rest => ?_⟩
  rw [List.singleton_append, readLines?, skipBlanks_cons (by decide)]
  simp [endLine?_break]

/-- A line is read up to the line break that ends it. -/
theorem spells_line {c : Char} {cs : List Char} {line : Line} (hc : c ∉ [' ', '\t', '#', '\n', '\r'])
    (h : ∀ rest, readLine? (c :: cs ++ '\n' :: rest) = some (line, '\n' :: rest)) :
    Spells (c :: cs ++ ['\n']) [line] := by
  simp only [List.mem_cons, List.not_mem_nil, or_false, not_or] at hc
  refine ⟨1, by simp, fun fuel rest => ?_⟩
  have hread := h rest
  rw [List.append_assoc, List.singleton_append]
  rw [List.cons_append] at hread ⊢
  rw [readLines?, skipBlanks_cons (by simp [isBlank, hc])]
  simp [hc, hread, endLine?_break]

/-- A line that begins with a word gives a value to a key. -/
theorem readLine?_pair {key : String} (hkey : IsWord key) (rest : List Char) :
    readLine? (key.toList ++ rest) =
      (readPair? (readValue? maxDepth) (key.toList ++ rest)).map fun r => (.pair r.1.1 r.1.2, r.2) := by
  obtain ⟨c, cs, hcs, hc⟩ := hkey.exists_cons
  simp only [List.mem_cons, List.not_mem_nil, or_false, not_or] at hc
  have hfirst : ∀ after, key.toList ++ rest ≠ '[' :: after := by
    intro after heq
    rw [hcs, List.cons_append] at heq
    exact hc.2.2.2.2.1 (List.cons.inj heq).1
  rw [readLine?.eq_def]
  split
  · next heq => exact absurd heq (hfirst _)
  · next heq => exact absurd heq (hfirst _)
  · rfl

theorem spells_pair {p : String × Plain} (hkey : IsWord p.1) {line : List Char}
    (h : renderPair? p = some line) : Spells line [.pair [p.1] p.2.toToml] := by
  obtain ⟨key, plain⟩ := p
  obtain ⟨value, hvalue, rfl⟩ := Option.map_eq_some_iff.mp h
  obtain ⟨c, cs, hcs, hc⟩ := hkey.exists_cons
  obtain ⟨d, ds, hds, hd⟩ := Plain.exists_cons hvalue
  simp only [List.mem_cons, List.not_mem_nil, or_false, not_or] at hc hd
  have hread : ∀ rest, readLine? (key.toList ++ ' ' :: '=' :: ' ' :: (value ++ '\n' :: rest)) =
      some (.pair [key] plain.toToml, '\n' :: rest) := by
    intro rest
    have hpath : path? (key.toList ++ ' ' :: '=' :: ' ' :: (value ++ '\n' :: rest)) =
        some ([key], '=' :: ' ' :: (value ++ '\n' :: rest)) := by
      refine path?_word hkey (fun b hb => ?_) ?_
      · obtain rfl : ' ' = b := by simpa using hb
        decide
      · show some '=' ≠ some '.'
        decide
    have hblank : skipBlanks (' ' :: (value ++ '\n' :: rest)) = value ++ '\n' :: rest := by
      have hfirst : isBlank d = false := by simp [isBlank, hd]
      rw [hds]
      exact skipBlanks_cons hfirst _
    rw [readLine?_pair hkey, readPair?, hpath]
    simp [after?, Timestamp.expect?, hblank, readValue?_plain hvalue]
  have hspells : Spells (c :: (cs ++ ' ' :: '=' :: ' ' :: value) ++ ['\n'])
        [.pair [key] plain.toToml] :=
    spells_line (by simp [hc]) fun rest => by simpa [hcs] using hread rest
  simpa [hcs] using hspells

theorem spells_header {key : String} (hkey : IsWord key) :
    Spells ('[' :: key.toList ++ [']', '\n']) [.header [key]] := by
  obtain ⟨c, cs, hcs, hc⟩ := hkey.exists_cons
  simp only [List.mem_cons, List.not_mem_nil, or_false, not_or] at hc
  have hread : ∀ rest, readLine? ('[' :: (key.toList ++ [']']) ++ '\n' :: rest) = some (.header [key], '\n' :: rest) := by
    intro rest
    have hpath : path? (key.toList ++ (']' :: '\n' :: rest)) = some ([key], ']' :: '\n' :: rest) := by
      refine path?_word hkey (fun b hb => ?_) ?_
      · obtain rfl : ']' = b := by simpa using hb
        decide
      · show some ']' ≠ some '.'
        decide
    rw [List.cons_append, List.append_assoc, List.singleton_append, readLine?.eq_def]
    split
    · next heq =>
      rw [hcs, List.cons_append] at heq
      exact absurd (List.cons.inj (List.cons.inj heq).2).1 hc.2.2.2.2.1
    · next heq =>
      obtain rfl := (List.cons.inj heq).2
      simp [hpath, after?, Timestamp.expect?]
    · next heq => exact absurd rfl (heq _)
  have hspells := spells_line (by decide) hread
  simpa using hspells

/-! ### Several lines -/

theorem forall₂_of_mapM {α β : Type} {f : α → Option β} {R : α → β → Prop} {as : List α}
    (hf : ∀ a ∈ as, ∀ b, f a = some b → R a b) {bs : List β} (h : as.mapM f = some bs) :
    List.Forall₂ R as bs := by
  induction as generalizing bs with
  | nil =>
      obtain rfl : [] = bs := by simpa using h
      exact .nil
  | cons a as ih =>
      obtain ⟨ha, has⟩ := List.forall_mem_cons.mp hf
      simp only [List.mapM_cons, Option.bind_eq_bind, Option.bind_eq_some_iff, Option.pure_def,
        Option.some.injEq] at h
      obtain ⟨b, hb, bs, hbs, rfl⟩ := h
      exact .cons (ha b hb) (ih has hbs)

variable {α : Type} {linesOf : α → List Line}

theorem spells_flatten {as : List α} {css : List (List Char)}
    (h : List.Forall₂ (fun a cs => Spells cs (linesOf a)) as css) : Spells css.flatten (as.flatMap linesOf) := by
  induction h with
  | nil => exact spells_nil
  | cons h _ ih => exact h.append ih

/-- A blank line between two parts of the text adds no line. -/
theorem spells_intercalate {as : List α} {css : List (List Char)}
    (h : List.Forall₂ (fun a cs => Spells cs (linesOf a)) as css) :
    Spells (['\n'].intercalate css) (as.flatMap linesOf) := by
  induction h with
  | nil => exact spells_nil
  | @cons a cs as css h hrest ih =>
      cases hrest with
      | nil => simpa using h
      | cons h' hrest' =>
          rw [List.intercalate_cons_cons, List.flatMap_cons, List.append_assoc]
          exact h.append (spells_break.append ih)

/-- The lines of a table. -/
def linesOfTable (t : String × List (String × Plain)) : List Line :=
  .header [t.1] :: t.2.map fun p => .pair [p.1] p.2.toToml

theorem spells_table {t : String × List (String × Plain)} (hname : IsWord t.1) (hkeys : ∀ p ∈ t.2, IsWord p.1)
    {cs : List Char} (h : renderTable? t = some cs) : Spells cs (linesOfTable t) := by
  obtain ⟨css, hcss, rfl⟩ := Option.map_eq_some_iff.mp h
  have hpairs : List.Forall₂ (fun p cs => Spells cs [.pair [p.1] p.2.toToml]) t.2 css :=
    forall₂_of_mapM (fun p hp line hline => spells_pair (hkeys p hp) hline) hcss
  have htable := (spells_header hname).append (spells_flatten hpairs)
  rwa [← List.map_eq_flatMap, List.singleton_append] at htable

/-! ## Tables -/

theorem lookup_eq_none_of_not_mem {key : String} {ms : Members} (h : key ∉ ms.map (·.1)) :
    ms.lookup key = none := by
  rw [List.lookup_eq_none_iff]
  intro m hm
  have hne : key ≠ m.1 := fun heq => h (heq ▸ List.mem_map_of_mem hm)
  simpa using hne

/-- A key that is not there yet comes last. -/
theorem alter_of_not_mem {key : String} {f : Option Toml → Option Toml} {ms : Members}
    (h : key ∉ ms.map (·.1)) : alter key f ms = (f none).map fun new => ms ++ [(key, new)] := by
  rw [alter, lookup_eq_none_of_not_mem h]

theorem alter_last {key : String} {f : Option Toml → Option Toml} {ms : Members} {old : Toml}
    (h : key ∉ ms.map (·.1)) :
    alter key f (ms ++ [(key, old)]) = (f (some old)).map fun new => ms ++ [(key, new)] := by
  have hlookup : (ms ++ [(key, old)]).lookup key = some old := by
    rw [List.lookup_append, lookup_eq_none_of_not_mem h]
    simp
  have hothers : ∀ new : Toml, (ms.map fun m => if m.1 = key then (key, new) else m) = ms := by
    intro new
    have hkeep : ∀ m ∈ ms, (if m.1 = key then (key, new) else m) = id m :=
      fun m hm => if_neg fun heq : m.1 = key => h (heq ▸ List.mem_map_of_mem hm)
    rw [List.map_congr_left hkeep, List.map_id]
  rw [alter, hlookup]
  simp [hothers]

/-- The table that is written as a table. -/
def tableOf (t : String × List (String × Plain)) : String × Toml :=
  (t.1, .table .header (t.2.map fun p => (p.1, p.2.toToml)))

/-- Pairs are added to the table that was opened last. -/
theorem foldlM_pairs {root : Members} {name : String} (hname : name ∉ root.map (·.1)) {inner : Members}
    {ps : List (String × Plain)} (hkeys : (inner.map (·.1) ++ ps.map (·.1)).Nodup) :
    (ps.map fun p => Line.pair [p.1] p.2.toToml).foldlM Draft.add?
        ⟨root ++ [(name, .table .header inner)], [name]⟩ =
      some ⟨root ++ [(name, .table .header (inner ++ ps.map fun p => (p.1, p.2.toToml)))], [name]⟩ := by
  induction ps generalizing inner with
  | nil => simp
  | cons p ps ih =>
      have hfresh : p.1 ∉ inner.map (·.1) := fun hmem =>
        (List.nodup_append.mp hkeys).2.2 p.1 hmem p.1 (by simp) rfl
      have hadd : Draft.add? ⟨root ++ [(name, .table .header inner)], [name]⟩ (.pair [p.1] p.2.toToml) =
          some ⟨root ++ [(name, .table .header (inner ++ [(p.1, p.2.toToml)]))], [name]⟩ := by
        simp [Draft.add?, within, putAt, alter_last hname, alter_of_not_mem hfresh]
      rw [List.map_cons, List.foldlM_cons, hadd, Option.bind_eq_bind, Option.bind_some, ih]
      · simp
      · simpa using hkeys

theorem foldlM_table {root : Members} {t : String × List (String × Plain)} (hname : t.1 ∉ root.map (·.1))
    (hkeys : (t.2.map (·.1)).Nodup) (current : List String) :
    (linesOfTable t).foldlM Draft.add? ⟨root, current⟩ = some ⟨root ++ [tableOf t], [t.1]⟩ := by
  have hopen : Draft.add? ⟨root, current⟩ (.header [t.1]) =
      some ⟨root ++ [(t.1, .table .header [])], [t.1]⟩ := by
    simp [Draft.add?, within, openTable, alter_of_not_mem hname]
  rw [linesOfTable, List.foldlM_cons, hopen, Option.bind_eq_bind, Option.bind_some, foldlM_pairs hname]
  · simp [tableOf]
  · simpa using hkeys

theorem foldlM_tables {tables : List (String × List (String × Plain))} {root : Members}
    (hnames : (root.map (·.1) ++ tables.map (·.1)).Nodup) (hkeys : ∀ t ∈ tables, (t.2.map (·.1)).Nodup)
    (current : List String) : ∃ current',
      (tables.flatMap linesOfTable).foldlM Draft.add? ⟨root, current⟩ =
        some ⟨root ++ tables.map tableOf, current'⟩ := by
  induction tables generalizing root current with
  | nil => exact ⟨current, by simp⟩
  | cons t tables ih =>
      have hfresh : t.1 ∉ root.map (·.1) := fun hmem =>
        (List.nodup_append.mp hnames).2.2 t.1 hmem t.1 (by simp) rfl
      obtain ⟨hkeys, hrest⟩ := List.forall_mem_cons.mp hkeys
      have hnext : ((root ++ [tableOf t]).map (·.1) ++ tables.map (·.1)).Nodup := by
        simpa [tableOf] using hnames
      obtain ⟨current', htables⟩ := ih hnext hrest [t.1]
      refine ⟨current', ?_⟩
      rw [List.flatMap_cons, List.foldlM_append, foldlM_table hfresh hkeys, Option.bind_eq_bind,
        Option.bind_some, htables]
      simp

/-- Tables of plain values under words, none of them twice. -/
structure IsDocument (tables : List (String × List (String × Plain))) : Prop where
  name : ∀ t ∈ tables, IsWord t.1
  key : ∀ t ∈ tables, ∀ p ∈ t.2, IsWord p.1
  names_nodup : (tables.map (·.1)).Nodup
  keys_nodup : ∀ t ∈ tables, (t.2.map (·.1)).Nodup

theorem Spells.readLines? {cs : List Char} {lines : List Line} (h : Spells cs lines) :
    readLines? (cs.length + 1) cs = some lines := by
  obtain ⟨n, hn, hread⟩ := h
  have hend : Toml.readLines? (cs.length - n + 1) [] = some [] := rfl
  have hfuel : cs.length + 1 = cs.length - n + 1 + n := by omega
  have hwhole := hread (cs.length - n + 1) []
  rw [List.append_nil, ← hfuel, hend] at hwhole
  simpa using hwhole

/-- What is written is read back. -/
theorem parse?_render {tables : List (String × List (String × Plain))} (h : IsDocument tables) {text : String}
    (htext : render? tables = some text) : parse? text = some (tables.map tableOf) := by
  obtain ⟨css, hcss, rfl⟩ := Option.map_eq_some_iff.mp htext
  have hspells := spells_intercalate (forall₂_of_mapM
    (fun t ht cs hcs => spells_table (h.name t ht) (h.key t ht) hcs) hcss)
  obtain ⟨current, htables⟩ :=
    foldlM_tables (show (([] : Members).map (·.1) ++ tables.map (·.1)).Nodup from h.names_nodup) h.keys_nodup []
  -- The text begins with a bracket if at all, so no mark is taken off.
  have hmark : ∀ cs, ['\n'].intercalate css ≠ '\uFEFF' :: cs := by
    have hbracket : List.Forall₂ (fun _ cs => ∃ cs', cs = '[' :: cs') tables css :=
      forall₂_of_mapM (fun t _ cs hcs => by
        obtain ⟨lines, -, rfl⟩ := Option.map_eq_some_iff.mp hcs
        exact ⟨_, rfl⟩) hcss
    intro cs heq
    cases hbracket with
    | nil => cases heq
    | cons hfirst hrest =>
        obtain ⟨cs', rfl⟩ := hfirst
        cases hrest with
        | nil => simp at heq
        | cons _ _ => simp at heq
  have hlines := hspells.readLines?
  have htable : ofLines? (tables.flatMap linesOfTable) = some (tables.map tableOf) := by
    rw [ofLines?, htables]
    rfl
  rw [parse?, String.toList_ofList]
  split
  · next heq => exact absurd heq (hmark _)
  · rw [hlines, Option.bind_some, htable]

/-- Tables can be written unless a number is too great. -/
theorem isSome_render? {tables : List (String × List (String × Plain))} :
    (render? tables).isSome = true ↔ ∀ t ∈ tables, ∀ p ∈ t.2, ∀ n, p.2 = .nat n → n ≤ maxNumber := by
  have hpair : ∀ p : String × Plain, (renderPair? p).isSome = true ↔ ∀ n, p.2 = .nat n → n ≤ maxNumber := by
    rintro ⟨key, s | n⟩ <;> simp [renderPair?, Plain.render?]
  simp only [render?, renderTable?, Option.isSome_map, isSome_mapM, hpair]

end EdgeFleet.Toml
