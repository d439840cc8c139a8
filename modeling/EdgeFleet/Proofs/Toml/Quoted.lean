import EdgeFleet.Toml.Quoted
import Mathlib.Data.List.Basic
import Mathlib.Data.List.Infix

/-! # Quoted text reads back

A written text is read piece by piece. In a long form a quote may stand for itself as long as the
quotes before it are too few to end the text together with it, so the statements count the quotes
that stand together.
-/

namespace EdgeFleet

/-! ## Codes of characters -/

theorem Hex.charValue?_toUpper_digit {n : Nat} (h : n < 16) :
    Hex.charValue? (Hex.digit n).toUpper = some n := by
  have hall : ∀ n < 16, Hex.charValue? (Hex.digit n).toUpper = some n := by decide
  exact hall n h

namespace Toml

theorem ofChars?_hexCode {c : Char} (h : c.toNat < 65536) : Hex.ofChars? (hexCode c) = some c.toNat := by
  have hdigit : ∀ shift, Hex.charValue? (Hex.digit (c.toNat >>> shift % 16)).toUpper =
      some (c.toNat >>> shift % 16) := fun shift => Hex.charValue?_toUpper_digit (by omega)
  simp only [Hex.ofChars?, hexCode, List.map_cons, List.map_nil, List.foldlM_cons, List.foldlM_nil, hdigit,
    Option.map_some, Option.bind_eq_bind, Option.bind_some, Option.pure_def, Option.some.injEq]
  simp only [Nat.shiftRight_eq_div_pow]
  omega

theorem takeChar?_hexCode {c : Char} (h : c.toNat < 65536) (rest : List Char) :
    Hex.takeChar? 4 (hexCode c ++ rest) = some (c, rest) := by
  have hlength : (hexCode c).length = 4 := rfl
  have htake : (hexCode c ++ rest).take 4 = hexCode c := by rw [← hlength, List.take_left]
  have hdrop : (hexCode c ++ rest).drop 4 = rest := by rw [← hlength, List.drop_left]
  have hvalid : c.toNat.isValidChar := c.valid
  simp [Hex.takeChar?, htake, hdrop, hlength, ofChars?_hexCode h, hvalid, Char.ofNat_toNat]

/-! ## Pieces -/

theorem isPlain_of_not_isControl {c : Char} (hcontrol : isControl c = false) (hbreak : c ≠ '\n') :
    isPlain c = true := by
  simp only [isControl, decide_eq_false_iff_not, not_or, not_and, not_not] at hcontrol
  simp only [isPlain, decide_eq_true_eq]
  by_cases hlow : c < ' '
  · left
    by_contra htab
    exact hbreak (hcontrol.1 hlow htab)
  · exact .inr ⟨Char.not_lt.mp hlow, hcontrol.2⟩

variable {f : Form}

theorem readPiece?_plain {c : Char} (hplain : isPlain c = true) (hescape : c ≠ '\\' ∨ f.hasEscapes = false)
    (rest : List Char) : readPiece? f (c :: rest) = some ([c], rest) := by
  have hnot : ¬(c = '\\' ∧ f.hasEscapes = true) := by
    rintro ⟨hc, hf⟩
    rcases hescape with h | h
    · exact h hc
    · simp [h] at hf
  rw [readPiece?, if_neg hnot, if_pos hplain]

theorem readPiece?_break (hlong : f.isLong = true) (rest : List Char) :
    readPiece? f ('\n' :: rest) = some (['\n'], rest) := by
  have hplain : isPlain '\n' = false := by decide
  simp [readPiece?, hplain, hlong, afterBreak?]

/-- A backslash that does not end its line introduces an escape. -/
theorem readPiece?_escape (hf : f.hasEscapes = true) {e : Char} (he : e ∉ [' ', '\t', '\n', '\r'])
    (rest : List Char) :
    readPiece? f ('\\' :: e :: rest) = (readEscape? (e :: rest)).map fun r => ([r.1], r.2) := by
  simp only [List.mem_cons, List.not_mem_nil, or_false, not_or] at he
  have hsplice : afterSplice? (e :: rest) = none := by
    have hblank : isBlank e = false := by simp [isBlank, he]
    rw [afterSplice?, List.dropWhile_cons_of_neg (by simp [hblank]), afterBreak?.eq_def]
    split
    · next heq => simp_all
    · next heq => simp_all
    · rfl
  rw [readPiece?, if_pos ⟨rfl, hf⟩, hsplice, ite_self]

theorem readPiece?_doubleQuote (hf : f.hasEscapes = true) (rest : List Char) :
    readPiece? f ('\\' :: '"' :: rest) = some (['"'], rest) := by
  rw [readPiece?_escape hf (by decide)]
  rfl

/-- The escapes that stand for one character each, beside that of the double quote. -/
theorem escape_cases {c : Char} :
    (∃ e, escape c = ['\\', e] ∧ e ∉ [' ', '\t', '\n', '\r'] ∧ ∀ rest, readEscape? (e :: rest) = some (c, rest)) ∨
      isControl c = true ∧ escape c = '\\' :: 'u' :: hexCode c ∨
      isPlain c = true ∧ c ≠ '\\' ∧ escape c = [c] := by
  by_cases hnamed : c ∈ ['\x08', '\t', '\n', '\x0c', '\r', '\\']
  · left
    simp only [List.mem_cons, List.not_mem_nil, or_false] at hnamed
    rcases hnamed with rfl | rfl | rfl | rfl | rfl | rfl
    all_goals exact ⟨_, rfl, by decide, fun rest => rfl⟩
  · right
    simp only [List.mem_cons, List.not_mem_nil, or_false, not_or] at hnamed
    have hlookup : [('\x08', 'b'), ('\t', 't'), ('\n', 'n'), ('\x0c', 'f'), ('\r', 'r'), ('\\', '\\')].lookup c =
        none := by
      simp [List.lookup_cons, beq_eq_false_iff_ne.mpr, hnamed]
    by_cases hcontrol : isControl c = true
    · exact .inl ⟨hcontrol, by rw [escape, hlookup]; exact if_pos hcontrol⟩
    · have hcontrol : isControl c = false := Bool.eq_false_iff.mpr hcontrol
      refine .inr ⟨isPlain_of_not_isControl hcontrol hnamed.2.2.1, hnamed.2.2.2.2.2, ?_⟩
      rw [escape, hlookup]
      exact if_neg (Bool.eq_false_iff.mp hcontrol)

theorem toNat_of_isControl {c : Char} (h : isControl c = true) : c.toNat < 128 := by
  simp only [isControl, decide_eq_true_eq] at h
  rcases h with h | rfl
  · have hlow : c.toNat < ' '.toNat := h.1
    exact Nat.lt_trans hlow (by decide)
  · decide

theorem readPiece?_escaped (hf : f.hasEscapes = true) (c : Char) (rest : List Char) :
    readPiece? f (escape c ++ rest) = some ([c], rest) := by
  rcases escape_cases (c := c) with ⟨e, he, hnot, hread⟩ | ⟨hcontrol, he⟩ | ⟨hplain, hbackslash, he⟩
  · rw [he, List.cons_append, List.singleton_append, readPiece?_escape hf hnot, hread, Option.map_some]
  · have hsmall := toNat_of_isControl hcontrol
    have hread : readEscape? ('u' :: (hexCode c ++ rest)) = some (c, rest) :=
      takeChar?_hexCode (by omega) rest
    rw [he, List.cons_append, List.cons_append, readPiece?_escape hf (by decide), hread, Option.map_some]
  · rw [he, List.singleton_append, readPiece?_plain hplain (.inl hbackslash)]

theorem head?_escape {c : Char} (h : c ≠ '"') : (escape c).head? ≠ some '"' ∧ escape c ≠ [] := by
  rcases escape_cases (c := c) with ⟨e, he, -, -⟩ | ⟨-, he⟩ | ⟨-, -, he⟩ <;> simp [he, h]

theorem isPlain_of_afterBreak? {c : Char} {cs : List Char} (h : (afterBreak? (c :: cs)).isSome = true) :
    isPlain c = false ∧ c ≠ '\\' := by
  unfold afterBreak? at h
  split at h
  · next heq =>
    cases heq
    decide
  · next heq =>
    cases heq
    decide
  · cases h

/-! ## Runs of a character -/

/-- The length of a run so far, and of the longest one, with one more character. -/
def countRun (c : Char) (counts : Nat × Nat) (d : Char) : Nat × Nat :=
  if d = c then (counts.1 + 1, max counts.2 (counts.1 + 1)) else (0, counts.2)

theorem longestRun_eq (c : Char) (cs : List Char) : longestRun c cs = (cs.foldl (countRun c) (0, 0)).2 := rfl

theorem best_le_foldl_countRun (c : Char) (cs : List Char) (now best : Nat) :
    best ≤ (cs.foldl (countRun c) (now, best)).2 := by
  induction cs generalizing now best with
  | nil => exact Nat.le_refl _
  | cons d cs ih =>
      rw [List.foldl_cons, countRun]
      split
      · exact Nat.le_trans (Nat.le_max_left _ _) (ih _ _)
      · exact ih _ _

/-! ## Bodies -/

theorem readBody?_of_end {cs : List Char} {r : List Char × List Char} (h : readEnd? f cs = some r) :
    readBody? f cs = some r := by
  rw [readBody?, h]

theorem readBody?_of_piece {cs piece rest : List Char} (hend : readEnd? f cs = none)
    (hpiece : readPiece? f cs = some (piece, rest)) :
    readBody? f cs = (readBody? f rest).map fun r => (piece ++ r.1, r.2) := by
  rw [readBody?]
  simp only [hend]
  split
  · next hnone =>
    rw [hpiece] at hnone
    cases hnone
  · next heq =>
    rw [hpiece] at heq
    cases heq
    rfl

namespace Form

/-- How many quotes stand at either end. -/
def width (f : Form) : Nat := if f.isLong then 3 else 1

theorem delimiter_eq (f : Form) : f.delimiter = List.replicate f.width f.quote := rfl

theorem width_pos (f : Form) : 0 < f.width := by
  rw [width]
  split <;> decide

theorem exists_delimiter_eq_cons (f : Form) : ∃ cs, f.delimiter = f.quote :: cs := by
  obtain ⟨n, hn⟩ := Nat.exists_eq_succ_of_ne_zero (Nat.ne_of_gt f.width_pos)
  exact ⟨List.replicate n f.quote, by rw [delimiter_eq, hn, List.replicate_succ]⟩

theorem readEnd?_eq_none {cs : List Char} (h : ¬f.delimiter <+: cs) : readEnd? f cs = none := by
  rw [readEnd?, if_neg (by simpa using h)]

/-- The last quotes end the text, and those before them belong to it. -/
theorem readEnd?_replicate {k : Nat} {rest : List Char} (hk : k < f.width)
    (hrest : rest.head? ≠ some f.quote) :
    readEnd? f (List.replicate k f.quote ++ (f.delimiter ++ rest)) = some (List.replicate k f.quote, rest) := by
  -- The quotes are counted from the left, so those of the text stand behind those that end it.
  have hswap : List.replicate k f.quote ++ (f.delimiter ++ rest) =
      f.delimiter ++ (List.replicate k f.quote ++ rest) := by
    rw [delimiter_eq, ← List.append_assoc, ← List.append_assoc, List.replicate_append_replicate,
      List.replicate_append_replicate, Nat.add_comm]
  have hprefix : f.delimiter.isPrefixOf (f.delimiter ++ (List.replicate k f.quote ++ rest)) = true := by simp
  have hrun : (List.replicate k f.quote ++ rest).takeWhile (· = f.quote) = List.replicate k f.quote := by
    rw [List.takeWhile_append_of_pos fun c hc => decide_eq_true (List.eq_of_mem_replicate hc)]
    cases rest with
    | nil => simp
    | cons c cs =>
        have hc : c ≠ f.quote := fun heq => hrest (congrArg some heq)
        simp [hc]
  have hmore : (if f.isLong then (List.replicate k f.quote).take 2 else []) = List.replicate k f.quote := by
    rw [width] at hk
    split at hk
    · next hlong => simp [hlong, List.take_replicate, Nat.min_eq_right (Nat.le_of_lt_succ hk)]
    · next hshort =>
      have hzero : k = 0 := by omega
      simp [hshort, hzero]
  rw [hswap, readEnd?, if_pos hprefix]
  simp only [List.drop_left, hrun, hmore]

/-- The body of a text that follows `run` quotes. Quotes that stand together are fewer than those that
end the text, and everything else is read in pieces that do not begin with a quote. -/
inductive Spells (f : Form) : (run : Nat) → (body text : List Char) → Prop where
  | nil {run : Nat} : Spells f run [] []
  | quote {run : Nat} {body text : List Char} (hrun : run + 1 < f.width) (h : Spells f (run + 1) body text) :
      Spells f run (f.quote :: body) (f.quote :: text)
  | piece {run : Nat} {front piece body text : List Char} (hne : front ≠ [])
      (hhead : front.head? ≠ some f.quote)
      (hread : ∀ rest, readPiece? f (front ++ rest) = some (piece, rest)) (h : Spells f 0 body text) :
      Spells f run (front ++ body) (piece ++ text)

namespace Spells

variable {run : Nat} {body text rest : List Char}

/-- Where as many quotes stand as end a text, the body is nothing but quotes. -/
theorem eq_replicate (h : f.Spells run body text) (hrun : run < f.width) {n : Nat} (hn : f.width ≤ n + run)
    (hquotes : List.replicate n f.quote <+: body ++ (f.delimiter ++ rest)) :
    ∃ k, k + run < f.width ∧ body = List.replicate k f.quote ∧ text = List.replicate k f.quote := by
  induction h generalizing n with
  | nil => exact ⟨0, by omega, rfl, rfl⟩
  | quote hnext _ ih =>
      obtain ⟨n, rfl⟩ := Nat.exists_eq_succ_of_ne_zero (show n ≠ 0 by omega)
      rw [List.replicate_succ, List.cons_append, List.prefix_cons_inj] at hquotes
      obtain ⟨k, hk, rfl, rfl⟩ := ih hnext (by omega) hquotes
      exact ⟨k + 1, by omega, rfl, rfl⟩
  | @piece run front _ _ _ hne hhead _ _ _ =>
      obtain ⟨n, rfl⟩ := Nat.exists_eq_succ_of_ne_zero (show n ≠ 0 by omega)
      obtain ⟨c, cs, rfl⟩ := List.exists_cons_of_ne_nil hne
      rw [List.replicate_succ, List.cons_append, List.cons_append, List.cons_prefix_cons] at hquotes
      exact absurd (congrArg some hquotes.1.symm) hhead

/-- A line break can only stand at the beginning of a body when the text has one. -/
theorem break_mem (h : f.Spells run body text) (hquote : isPlain f.quote = true)
    (hbreak : (afterBreak? (body ++ (f.delimiter ++ rest))).isSome = true) : '\n' ∈ text := by
  cases h with
  | nil =>
      obtain ⟨cs, hcs⟩ := f.exists_delimiter_eq_cons
      rw [List.nil_append, hcs, List.cons_append] at hbreak
      simp [(isPlain_of_afterBreak? hbreak).1] at hquote
  | quote _ _ => simp [(isPlain_of_afterBreak? hbreak).1] at hquote
  | @piece _ front piece body text hne _ hread _ =>
      obtain ⟨c, cs, rfl⟩ := List.exists_cons_of_ne_nil hne
      rw [List.append_assoc, List.cons_append] at hbreak
      obtain ⟨hplain, hescape⟩ := isPlain_of_afterBreak? hbreak
      have hpiece := hread (body ++ (f.delimiter ++ rest))
      rw [List.cons_append, readPiece?, if_neg (by simp [hescape]), if_neg (by simp [hplain])] at hpiece
      split at hpiece
      · obtain ⟨after, -, heq⟩ := Option.map_eq_some_iff.mp hpiece
        have hbreak : ['\n'] = piece := congrArg Prod.fst heq
        simp [← hbreak]
      · cases hpiece

/-- Quotes that are enough to end the text do so, and those before the last ones belong to it. -/
theorem readBody?_of_quotes (h : f.Spells run body text) (hrun : run < f.width)
    (hrest : rest.head? ≠ some f.quote) (hquotes : f.delimiter <+: body ++ (f.delimiter ++ rest)) :
    readBody? f (body ++ (f.delimiter ++ rest)) = some (text, rest) := by
  rw [delimiter_eq] at hquotes
  obtain ⟨k, hk, rfl, rfl⟩ := h.eq_replicate hrun (Nat.le_add_right f.width run) hquotes
  exact readBody?_of_end (readEnd?_replicate (by omega) hrest)

/-- A body is read up to the quotes that end it. -/
theorem readBody? (h : f.Spells run body text) (hrun : run < f.width) (hplain : isPlain f.quote = true)
    (hescape : f.quote ≠ '\\') (hrest : rest.head? ≠ some f.quote) :
    readBody? f (body ++ (f.delimiter ++ rest)) = some (text, rest) := by
  induction h with
  | nil => exact readBody?_of_end (readEnd?_replicate f.width_pos hrest)
  | @quote run body text hnext h ih =>
      by_cases hquotes : f.delimiter <+: f.quote :: body ++ (f.delimiter ++ rest)
      · exact (h.quote hnext).readBody?_of_quotes hrun hrest hquotes
      · have hpiece := readPiece?_plain (f := f) hplain (.inl hescape) (body ++ (f.delimiter ++ rest))
        rw [List.cons_append] at hquotes ⊢
        rw [readBody?_of_piece (readEnd?_eq_none hquotes) hpiece, ih hnext]
        rfl
  | @piece run front piece body text hne hhead hread h ih =>
      by_cases hquotes : f.delimiter <+: front ++ body ++ (f.delimiter ++ rest)
      · exact (h.piece hne hhead hread).readBody?_of_quotes hrun hrest hquotes
      · rw [List.append_assoc] at hquotes ⊢
        rw [readBody?_of_piece (readEnd?_eq_none hquotes) (hread _), ih f.width_pos]
        rfl

/-! ### Bodies as they are written -/

/-- With escapes every text can be written. -/
theorem writeBody (hf : f.quote = '"') (run : Nat) (cs : List Char) : f.Spells run (writeBody f run cs) cs := by
  have hescapes : f.hasEscapes = true := by simp [hasEscapes, hf]
  induction cs generalizing run with
  | nil => exact .nil
  | cons c cs ih =>
      rw [Toml.writeBody]
      split
      · next hc =>
        subst hc
        split
        · next hlong =>
          have hnext : run + 1 < f.width := by
            rw [width, if_pos hlong.1]
            omega
          rw [← hf]
          exact .quote hnext (ih (run + 1))
        · exact @Spells.piece f run ['\\', '"'] ['"'] _ cs (by simp) (by simp [hf])
            (readPiece?_doubleQuote hescapes) (ih 0)
      · next hc =>
        split
        · next hbreak =>
          obtain ⟨rfl, hlong⟩ := hbreak
          exact @Spells.piece f run ['\n'] ['\n'] _ cs (by simp) (by simp [hf]) (readPiece?_break hlong) (ih 0)
        · obtain ⟨hhead, hne⟩ := head?_escape hc
          exact .piece hne (by rwa [hf]) (readPiece?_escaped hescapes c) (ih 0)

/-- Without escapes a text can be written that has no control characters and too few quotes to end it. -/
theorem self (hf : f.hasEscapes = false) {cs : List Char}
    (hplain : ∀ c ∈ cs, isPlain c = true ∨ c = '\n' ∧ f.isLong = true) (now best : Nat)
    (hrun : (cs.foldl (countRun f.quote) (now, best)).2 < f.width) : f.Spells now cs cs := by
  induction cs generalizing now best with
  | nil => exact .nil
  | cons c cs ih =>
      obtain ⟨hc, hcs⟩ := List.forall_mem_cons.mp hplain
      rw [List.foldl_cons, countRun] at hrun
      split at hrun
      · next hquote =>
        have hnow : now + 1 ≤ (cs.foldl (countRun f.quote) (now + 1, max best (now + 1))).2 :=
          Nat.le_trans (Nat.le_max_right _ _) (best_le_foldl_countRun ..)
        subst hquote
        exact .quote (Nat.lt_of_le_of_lt hnow hrun) (ih hcs _ _ hrun)
      · next hother =>
        have hread : ∀ rest, readPiece? f ([c] ++ rest) = some ([c], rest) := by
          intro rest
          rcases hc with hc | ⟨rfl, hlong⟩
          · exact readPiece?_plain hc (.inr hf) rest
          · exact readPiece?_break hlong rest
        exact @Spells.piece f now [c] [c] cs cs (by simp) (by simpa using hother) hread (ih hcs _ _ hrun)

end Spells

end Form

/-! ## The form of a text -/

/-- The body that is written for a text. -/
def bodyOf (f : Form) (cs : List Char) : List Char := if f.hasEscapes then writeBody f 0 cs else cs

/-- A form without escapes is chosen only for a text that needs none and whose quotes do not end it. -/
theorem formOf_cases (cs : List Char) : (formOf cs).quote = '"' ∨ (formOf cs).quote = '\'' ∧
    (∀ c ∈ cs, isControl c = false) ∧ longestRun '\'' cs < (formOf cs).width ∧
      ('\n' ∈ cs → (formOf cs).isLong = true) := by
  generalize hform : formOf cs = f
  simp only [formOf] at hform
  split at hform
  · exact .inl (hform ▸ rfl)
  split at hform
  · next _ h =>
    subst hform
    simp only [Bool.not_eq_true, List.any_eq_false, List.contains_eq_mem, decide_eq_false_iff_not] at h
    refine .inr ⟨rfl, h.1, ?_, fun hbreak => absurd hbreak h.2.2⟩
    rw [h.2.1]
    decide
  split at hform
  · exact .inl (hform ▸ rfl)
  split at hform
  · next _ _ _ h =>
    subst hform
    simp only [Bool.not_eq_true, List.any_eq_false] at h
    exact .inr ⟨rfl, h.1, Nat.lt_succ_of_le h.2, fun _ => rfl⟩
  split at hform
  · exact .inl (hform ▸ rfl)
  · exact .inl (hform ▸ rfl)

theorem hasEscapes_of_quote {f : Form} (h : f.quote = '\'') : f.hasEscapes = false := by
  simp [Form.hasEscapes, h]

/-- The form of a text suits it. -/
theorem spells_bodyOf_formOf (cs : List Char) : (formOf cs).Spells 0 (bodyOf (formOf cs) cs) cs := by
  rcases formOf_cases cs with hquote | ⟨hquote, hcontrol, hrun, hbreak⟩
  · have hescapes : (formOf cs).hasEscapes = true := by simp [Form.hasEscapes, hquote]
    rw [bodyOf, if_pos hescapes]
    exact .writeBody hquote 0 cs
  · have hescapes := hasEscapes_of_quote hquote
    rw [bodyOf, if_neg (by simp [hescapes])]
    refine Form.Spells.self hescapes (fun c hc => ?_) 0 0 (by rwa [hquote, ← longestRun_eq])
    by_cases heq : c = '\n'
    · exact .inr ⟨heq, hbreak (heq ▸ hc)⟩
    · exact .inl (isPlain_of_not_isControl (hcontrol c hc) heq)

theorem quote_formOf (cs : List Char) : (formOf cs).quote = '"' ∨ (formOf cs).quote = '\'' :=
  (formOf_cases cs).imp_right fun h => h.1

/-! ## Quoted texts -/

theorem isPrefixOf_delimiter_of_ne {f : Form} {c : Char} {cs : List Char} (h : f.quote ≠ c) :
    f.delimiter.isPrefixOf (c :: cs) = false := by
  obtain ⟨quotes, hquotes⟩ := f.exists_delimiter_eq_cons
  simp [hquotes, List.isPrefixOf, h]

/-- Where a quote stands, a text begins in one of the two forms with that quote. -/
theorem formAt?_quote {q : Char} (hq : q = '"' ∨ q = '\'') (cs : List Char) :
    formAt? (q :: cs) = some ⟨q, (Form.delimiter ⟨q, true⟩).isPrefixOf (q :: cs)⟩ := by
  have hself : (Form.delimiter ⟨q, false⟩).isPrefixOf (q :: cs) = true := by simp [Form.delimiter]
  have hother : q ≠ '"' → ∀ isLong, (Form.delimiter ⟨'"', isLong⟩).isPrefixOf (q :: cs) = false :=
    fun hne isLong => isPrefixOf_delimiter_of_ne (Ne.symm hne)
  have hlong := Bool.eq_false_or_eq_true ((Form.delimiter ⟨q, true⟩).isPrefixOf (q :: cs))
  rw [formAt?, Form.longBasic, Form.basic, Form.longLiteral, Form.literal]
  rcases hq with rfl | rfl
  · rcases hlong with hlong | hlong <;> simp [List.find?, hlong, hself]
  · have hnone := hother (by decide)
    rcases hlong with hlong | hlong <;> simp [List.find?, hnone, hlong, hself]

/-- Three quotes at the beginning of a short form would be the two of an empty text and one behind it. -/
theorem not_isPrefixOf_long {q : Char} {body text rest : List Char} (h : Form.Spells ⟨q, false⟩ 0 body text)
    (hrest : rest.head? ≠ some q) :
    (Form.delimiter ⟨q, true⟩).isPrefixOf (q :: (body ++ (q :: rest))) = false := by
  rw [Bool.eq_false_iff]
  intro hlong
  have hquotes : List.replicate 2 q <+: body ++ (q :: rest) := by
    have hprefix := List.isPrefixOf_iff_prefix.mp hlong
    rwa [show Form.delimiter ⟨q, true⟩ = q :: List.replicate 2 q from rfl, List.prefix_cons_inj] at hprefix
  obtain ⟨k, hk, rfl, -⟩ := h.eq_replicate (Form.width_pos _) (show 1 ≤ 2 + 0 by decide) hquotes
  obtain rfl : k = 0 := Nat.lt_one_iff.mp hk
  rw [List.replicate_zero, List.nil_append, List.replicate_succ, List.prefix_cons_inj] at hquotes
  cases rest with
  | nil => simp at hquotes
  | cons c cs =>
      rw [List.replicate_succ, List.cons_prefix_cons] at hquotes
      exact hrest (congrArg some hquotes.1.symm)

/-- The form that a body is written in is recognised by its quotes. -/
theorem formAt?_written {f : Form} (hquote : f.quote = '"' ∨ f.quote = '\'') {body text rest : List Char}
    (h : f.Spells 0 body text) (hrest : rest.head? ≠ some f.quote) {front : List Char}
    (hfront : front = [] ∨ f.isLong = true) :
    formAt? (f.delimiter ++ (front ++ (body ++ (f.delimiter ++ rest)))) = some f := by
  obtain ⟨q, isLong⟩ := f
  cases isLong with
  | true =>
      have hdelimiter : Form.delimiter ⟨q, true⟩ = [q, q, q] := rfl
      rw [hdelimiter, List.cons_append, formAt?_quote hquote]
      simp [hdelimiter]
  | false =>
      obtain rfl : front = [] := by simpa using hfront
      have hdelimiter : Form.delimiter ⟨q, false⟩ = [q] := rfl
      rw [hdelimiter, List.nil_append, List.singleton_append, List.singleton_append, formAt?_quote hquote,
        not_isPrefixOf_long h hrest]

theorem exists_quoted_eq_cons (s : String) : ∃ cs, quoted s = (formOf s.toList).quote :: cs := by
  obtain ⟨cs, hcs⟩ := (formOf s.toList).exists_delimiter_eq_cons
  simp only [quoted, hcs, List.cons_append]
  exact ⟨_, rfl⟩

/-- A quoted text is read back, whatever follows it, unless that begins with a quote. -/
theorem readQuoted?_quoted (s : String) {rest : List Char}
    (hrest : rest.head? ≠ some '"' ∧ rest.head? ≠ some '\'') :
    readQuoted? (quoted s ++ rest) = some (s, rest) := by
  have hbody := spells_bodyOf_formOf s.toList
  have hquote := quote_formOf s.toList
  generalize hform : formOf s.toList = f at hbody hquote
  have hrest : rest.head? ≠ some f.quote := by
    rcases hquote with hquote | hquote <;> rw [hquote]
    exacts [hrest.1, hrest.2]
  have hplain : isPlain f.quote = true ∧ f.quote ≠ '\\' := by
    rcases hquote with hquote | hquote <;> rw [hquote] <;> decide
  have hread := hbody.readBody? f.width_pos hplain.1 hplain.2 hrest
  generalize hfront : (if f.isLong = true ∧ '\n' ∈ s.toList then ['\n'] else []) = front
  have hwritten : quoted s ++ rest = f.delimiter ++ (front ++ (bodyOf f s.toList ++ (f.delimiter ++ rest))) := by
    simp [quoted, hform, bodyOf, ← hfront]
  have hform : formAt? (quoted s ++ rest) = some f := by
    rw [hwritten]
    refine formAt?_written hquote hbody hrest ?_
    rw [← hfront]
    split
    · next h => exact .inr h.1
    · exact .inl rfl
  -- The line break that was put before the text is taken away again, and none of the text.
  have hopen : (if f.isLong then
      (afterBreak? (front ++ (bodyOf f s.toList ++ (f.delimiter ++ rest)))).getD
        (front ++ (bodyOf f s.toList ++ (f.delimiter ++ rest)))
      else front ++ (bodyOf f s.toList ++ (f.delimiter ++ rest))) =
      bodyOf f s.toList ++ (f.delimiter ++ rest) := by
    split
    · next hlong =>
      rw [hlong] at hfront
      by_cases hbreak : '\n' ∈ s.toList
      · simp [← hfront, hbreak, afterBreak?]
      · have hnone : afterBreak? (bodyOf f s.toList ++ (f.delimiter ++ rest)) = none := by
          rw [Option.eq_none_iff_forall_ne_some]
          intro after hafter
          have hsome : (afterBreak? (bodyOf f s.toList ++ (f.delimiter ++ rest))).isSome = true := by
            rw [hafter]
            rfl
          exact hbreak (hbody.break_mem hplain.1 hsome)
        simp [← hfront, hbreak, hnone]
    · next hshort => simp [← hfront, hshort]
  rw [readQuoted?, hform]
  simp only [Option.bind_eq_bind, Option.bind_some, hwritten, List.drop_left, hopen, hread, Option.map_some,
    String.ofList_toList]

end Toml

end EdgeFleet
