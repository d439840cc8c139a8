import EdgeFleet.Proofs.Json.Scan
import Mathlib.Data.List.Induction
import Mathlib.Data.List.TakeWhile

/-! # Written JSON reads back

The tokens of a written value are those of its structure, and building from them gives the value
again. Excepted are strings that spell no text, and numbers that are kept as literals.
-/

namespace EdgeFleet.Json

/-! ## Integers -/

theorem toNat_octet {c : Char} (h : Decimal.isDigit c = true) : (octet c).toNat = c.toNat := by
  rw [Decimal.isDigit_iff] at h
  simp only [octet, Nat.toUInt8, UInt8.toNat_ofNat']
  omega

theorem isDigit_octet {c : Char} (h : Decimal.isDigit c = true) : isDigit (octet c) = true := by
  have hc := (Decimal.isDigit_iff c).mp h
  simp only [isDigit, decide_eq_true_eq, UInt8.le_iff_toNat_le, toNat_octet h]
  exact hc

theorem all_isDigit_ascii {cs : List Char} (h : cs.all Decimal.isDigit = true) :
    (ascii cs).all isDigit = true := by
  rw [List.all_eq_true] at h ⊢
  intro b hb
  obtain ⟨c, hc, rfl⟩ := List.mem_map.mp hb
  exact isDigit_octet (h c hc)

theorem natOfDigits_ascii {cs : List Char} (h : cs.all Decimal.isDigit = true) :
    natOfDigits (ascii cs) = Decimal.ofDigits cs := by
  rw [natOfDigits, Decimal.ofDigits, ascii, List.foldl_map]
  refine List.foldl_ext _ _ _ fun n c hc => ?_
  rw [toNat_octet (List.all_eq_true.mp h c hc)]
  rfl

theorem all_isDigit_digits (n : Nat) : (Decimal.digits n).all Decimal.isDigit = true :=
  List.all_eq_true.mpr fun _ hc => Decimal.isDigit_of_mem_digits hc

/-- The digits of a number, read as a numeral with or without a sign. -/
theorem read?_digits (negative : Bool) (n : Nat) :
    Numeral.read? ((if negative then [octet '-'] else []) ++ ascii (Decimal.digits n)) =
      some ⟨negative, ascii (Decimal.digits n), none, none⟩ := by
  have hall := all_isDigit_ascii (all_isDigit_digits n)
  have hall' : ∀ b ∈ ascii (Decimal.digits n), isDigit b = true := List.all_eq_true.mp hall
  have htake : (ascii (Decimal.digits n)).takeWhile isDigit = ascii (Decimal.digits n) :=
    List.takeWhile_eq_self_iff.mpr hall'
  have hdrop : (ascii (Decimal.digits n)).dropWhile isDigit = [] :=
    List.dropWhile_eq_nil_iff.mpr hall'
  have hne : ascii (Decimal.digits n) ≠ [] := by
    simp [ascii, Decimal.digits_ne_nil]
  have hzero : ¬((ascii (Decimal.digits n)).head? = some (octet '0') ∧
      (ascii (Decimal.digits n)).length > 1) := by
    rintro ⟨hhead, hlength⟩
    cases hds : Decimal.digits n with
    | nil => exact Decimal.digits_ne_nil n hds
    | cons c cs =>
        rw [hds] at hhead
        have hc : c = '0' := by
          have hdigit : Decimal.isDigit c = true :=
            Decimal.isDigit_of_mem_digits (n := n) (by simp [hds])
          have heq : octet c = octet '0' := by simpa [ascii] using hhead
          have hnat : c.toNat = '0'.toNat := by
            rw [← toNat_octet hdigit, heq]
            rfl
          exact Char.toNat_inj.mp hnat
        have hone := Decimal.head?_digits (n := n) (by rw [hds, hc]; rfl)
        rw [ascii, List.length_map, hone] at hlength
        omega
  have hminus : (ascii (Decimal.digits n)).head? ≠ some (octet '-') := by
    intro h
    have hmem : octet '-' ∈ ascii (Decimal.digits n) := List.mem_of_mem_head? h
    exact absurd (hall' _ hmem) (by decide)
  cases negative with
  | true =>
      simp only [Numeral.read?, if_true, List.singleton_append, htake, hdrop]
      rw [if_neg (by simp [hne, hzero])]
  | false =>
      cases hds : ascii (Decimal.digits n) with
      | nil => exact absurd hds hne
      | cons b bs =>
          rw [hds] at hminus htake hdrop hzero
          have hb : b ≠ octet '-' := by simpa using hminus
          simp only [Numeral.read?, Bool.false_eq_true, if_false, List.nil_append, hb, htake, hdrop]
          rw [if_neg (by simpa using hzero)]

theorem readNumber?_renderInt (n : Int) : readNumber? (renderInt n) = some (.int n) := by
  have hvalue : natOfDigits (ascii (Decimal.digits n.natAbs)) = n.natAbs := by
    rw [natOfDigits_ascii (all_isDigit_digits _), Decimal.ofDigits_digits]
  have hread := read?_digits (decide (n < 0)) n.natAbs
  simp only [decide_eq_true_eq] at hread
  rw [readNumber?, renderInt, hread, Option.map_some]
  simp only [Numeral.isInteger, Option.isNone_none, and_self, if_true, hvalue, decide_eq_true_eq]
  by_cases hn : n < 0
  · have habs : n.natAbs ≠ 0 := by omega
    have hneg : -(n.natAbs : Int) = n := by omega
    rw [if_pos hn, if_neg habs, hneg]
  · have hpos : (n.natAbs : Int) = n := by omega
    rw [if_neg hn, hpos]

theorem all_isWordOctet_renderInt (n : Int) : (renderInt n).all isWordOctet = true := by
  have hdigits : (ascii (Decimal.digits n.natAbs)).all isWordOctet = true := by
    have hall := all_isDigit_ascii (all_isDigit_digits n.natAbs)
    rw [List.all_eq_true] at hall ⊢
    intro b hb
    simp [isWordOctet, hall b hb]
  rw [renderInt, List.all_append, hdigits, Bool.and_true]
  split <;> rfl

theorem renderInt_ne_nil (n : Int) : renderInt n ≠ [] := by
  simp [renderInt, ascii, Decimal.digits_ne_nil]

theorem scans_renderInt (n : Int) : Scans (renderInt n) [.scalar (.int n)] := by
  -- The last octet is a digit, so the word is none of the three that are spelled with letters.
  have hlast : ∃ b, (renderInt n).getLast? = some b ∧ isDigit b = true := by
    have hne : ascii (Decimal.digits n.natAbs) ≠ [] := by simp [ascii, Decimal.digits_ne_nil]
    refine ⟨(ascii (Decimal.digits n.natAbs)).getLast hne, ?_, ?_⟩
    · rw [renderInt, List.getLast?_append, List.getLast?_eq_some_getLast hne]
      rfl
    · exact List.all_eq_true.mp (all_isDigit_ascii (all_isDigit_digits _)) _ (List.getLast_mem hne)
  obtain ⟨b, hb, hdigit⟩ := hlast
  have hother : ∀ cs : List Char, ((ascii cs).getLast?.any isDigit) = false →
      renderInt n ≠ ascii cs := by
    intro cs hcs heq
    rw [← heq, hb] at hcs
    simp [hdigit] at hcs
  refine scans_word (renderInt_ne_nil n) (all_isWordOctet_renderInt n) ?_
  rw [readWord?, if_neg (hother _ (by decide)), if_neg (hother _ (by decide)),
    if_neg (hother _ (by decide)), readNumber?_renderInt]

/-! ## Values -/

mutual

/-- Every string of the value is readable, and every number an integer. -/
def isPlain : Json → Bool
  | .real _ => false
  | .str s => s.isSome
  | .arr items => arePlain items
  | .obj members => arePlainMembers members
  | _ => true

def arePlain : List Json → Bool
  | [] => true
  | j :: rest => isPlain j && arePlain rest

def arePlainMembers : List (Option String × Json) → Bool
  | [] => true
  | (k, j) :: rest => k.isSome && isPlain j && arePlainMembers rest

end

mutual

/-- The tokens of a value. -/
def spelling : Json → List Token
  | .arr items => .lbracket :: (spellingItems items ++ [.rbracket])
  | .obj members => .lbrace :: (spellingMembers members ++ [.rbrace])
  | j => [.scalar j]

def spellingItems : List Json → List Token
  | [] => []
  | [j] => spelling j
  | j :: rest => spelling j ++ .comma :: spellingItems rest

def spellingMembers : List (Option String × Json) → List Token
  | [] => []
  | [(k, j)] => .scalar (.str k) :: .colon :: spelling j
  | (k, j) :: rest => .scalar (.str k) :: .colon :: (spelling j ++ .comma :: spellingMembers rest)

end

/-! ## Scanning -/

theorem Scans.between {bs bs' : Bytes} {ts ts' : List Token} (h : Scans bs ts) (c : Char) {t : Token}
    (ht : punctuation? (octet c) = some t) (h' : Scans bs' ts')
    (hc : isBlank (octet c) = false ∧ octet c ≠ octet '"' ∧ isWordOctet (octet c) = false := by decide) :
    Scans (bs ++ octet c :: bs') (ts ++ t :: ts') :=
  h.append hc ht h'

mutual

theorem scans_render : (j : Json) → j.isPlain = true → Scans j.render j.spelling
  | .null, _ => scans_word (by decide) (by decide) rfl
  | .bool true, _ => scans_word (by decide) (by decide) rfl
  | .bool false, _ => scans_word (by decide) (by decide) rfl
  | .int n, _ => scans_renderInt n
  | .str (some s), _ => scans_quote s
  | .arr items, h => by
      have hitems := scans_renderItems items h
      have hopen := scans_nil.between '[' rfl hitems
      simpa [render, spelling] using hopen.between ']' rfl scans_nil
  | .obj members, h => by
      have hmembers := scans_renderMembers members h
      have hopen := scans_nil.between '{' rfl hmembers
      simpa [render, spelling] using hopen.between '}' rfl scans_nil

theorem scans_renderItems : (js : List Json) → arePlain js = true →
    Scans (renderItems js) (spellingItems js)
  | [], _ => scans_nil
  | [j], h => by
      rw [arePlain, Bool.and_eq_true] at h
      exact scans_render j h.1
  | j :: j' :: rest, h => by
      rw [arePlain, Bool.and_eq_true] at h
      exact (scans_render j h.1).between ',' rfl (scans_renderItems (j' :: rest) h.2)

theorem scans_renderMembers : (ms : List (Option String × Json)) → arePlainMembers ms = true →
    Scans (renderMembers ms) (spellingMembers ms)
  | [], _ => scans_nil
  | [(some k, j)], h => by
      simp only [arePlainMembers, Bool.and_eq_true] at h
      exact (scans_quote k).between ':' rfl (scans_render j h.1.2)
  | (some k, j) :: m :: rest, h => by
      rw [arePlainMembers, Bool.and_eq_true, Bool.and_eq_true] at h
      have hmember := (scans_quote k).between ':' rfl (scans_render j h.1.2)
      have hall := hmember.between ',' rfl (scans_renderMembers (m :: rest) h.2)
      simpa [renderMembers, spellingMembers] using hall

end

theorem tokens?_of_scans {bs : Bytes} {ts : List Token} (h : Scans bs ts) : tokens? bs = some ts := by
  obtain ⟨⟨found, scan⟩, hst, hsettled⟩ := h []
  rw [tokens?, hst]
  rw [List.append_nil] at hsettled
  cases scan with
  | between =>
      have hfound : found = ts.reverse := hsettled
      simp [hfound]
  | word done =>
      obtain ⟨v, hv, hfound⟩ := hsettled
      have hts : ts = found.reverse ++ [.scalar v] := by
        simpa using congrArg List.reverse hfound
      simp [hv, hts]
  | quoted done => exact hsettled.elim
  | escape done => exact hsettled.elim
  | hex done count value => exact hsettled.elim

/-! ## Building -/

/-- A token that begins a value is treated alike right after an opening bracket. -/
theorem buildStep_valueOrClose (fs : List Frame) {t : Token} (ht : t ≠ .rbracket) :
    buildStep (.running fs .valueOrClose) t = startValue fs t := by
  rw [buildStep.eq_def]
  split <;> simp_all

theorem spelling_ne_rbracket (j : Json) : ∃ t ts, j.spelling = t :: ts ∧ t ≠ .rbracket := by
  cases j <;> simp [spelling]

theorem foldlM_spelling_valueOrClose (fs : List Frame) (j : Json) :
    j.spelling.foldlM buildStep (.running fs .valueOrClose) =
      j.spelling.foldlM buildStep (.running fs .value) := by
  obtain ⟨t, ts, hj, ht⟩ := spelling_ne_rbracket j
  rw [hj, List.foldlM_cons, List.foldlM_cons, buildStep_valueOrClose fs ht]
  rfl

mutual

theorem build_spelling : (j : Json) → (fs : List Frame) →
    j.spelling.foldlM buildStep (.running fs .value) = deliver j fs
  | .null, fs => by simp [spelling, buildStep, startValue]
  | .bool b, fs => by simp [spelling, buildStep, startValue]
  | .int n, fs => by simp [spelling, buildStep, startValue]
  | .real l, fs => by simp [spelling, buildStep, startValue]
  | .str s, fs => by simp [spelling, buildStep, startValue]
  | .arr [], fs => by simp [spelling, spellingItems, buildStep, startValue]
  | .arr (j :: rest), fs => by
      have hopen : buildStep (.running fs .value) .lbracket =
        some (.running (.items [] :: fs) .valueOrClose) := rfl
      have hitems := build_spellingItems (j :: rest) [] fs (by simp)
      rw [spelling, List.foldlM_cons, hopen, Option.bind_eq_bind, Option.bind_some,
        List.foldlM_append]
      have hfirst : (spellingItems (j :: rest)).foldlM buildStep
          (.running (.items [] :: fs) .valueOrClose) =
          (spellingItems (j :: rest)).foldlM buildStep (.running (.items [] :: fs) .value) := by
        cases rest with
        | nil => exact foldlM_spelling_valueOrClose _ j
        | cons j' rest =>
            rw [spellingItems, List.foldlM_append, List.foldlM_append, foldlM_spelling_valueOrClose]
            simp
      rw [hfirst, hitems]
      simp [buildStep]
  | .obj [], fs => by simp [spelling, spellingMembers, buildStep, startValue]
  | .obj ((k, j) :: rest), fs => by
      have hopen : buildStep (.running fs .value) .lbrace =
        some (.running (.members [] :: fs) .keyOrClose) := rfl
      have hmembers := build_spellingMembers ((k, j) :: rest) [] fs (by simp)
      rw [spelling, List.foldlM_cons, hopen, Option.bind_eq_bind, Option.bind_some,
        List.foldlM_append]
      have hfirst : (spellingMembers ((k, j) :: rest)).foldlM buildStep
          (.running (.members [] :: fs) .keyOrClose) =
          (spellingMembers ((k, j) :: rest)).foldlM buildStep (.running (.members [] :: fs) .key) := by
        cases rest <;> rfl
      rw [hfirst, hmembers]
      simp [buildStep]

theorem build_spellingItems : (js done : List Json) → (fs : List Frame) → js ≠ [] →
    (spellingItems js).foldlM buildStep (.running (.items done :: fs) .value) =
      some (.running (.items (js.reverse ++ done) :: fs) .more)
  | [], _, _, h => absurd rfl h
  | [j], done, fs, _ => by
      rw [spellingItems, build_spelling j]
      rfl
  | j :: j' :: rest, done, fs, _ => by
      have hcomma : buildStep (.running (.items (j :: done) :: fs) .more) .comma =
        some (.running (.items (j :: done) :: fs) .value) := rfl
      have hrest := build_spellingItems (j' :: rest) (j :: done) fs (by simp)
      simp [spellingItems, build_spelling j, deliver, hcomma, hrest]

theorem build_spellingMembers : (ms done : List (Option String × Json)) → (fs : List Frame) →
    ms ≠ [] →
    (spellingMembers ms).foldlM buildStep (.running (.members done :: fs) .key) =
      some (.running (.members (ms.reverse ++ done) :: fs) .more)
  | [], _, _, h => absurd rfl h
  | [(k, j)], done, fs, _ => by
      have hkey : buildStep (.running (.members done :: fs) .key) (.scalar (.str k)) =
        some (.running (.pair done k :: fs) .colon) := rfl
      have hcolon : buildStep (.running (.pair done k :: fs) .colon) .colon =
        some (.running (.pair done k :: fs) .value) := rfl
      simp [spellingMembers, hkey, hcolon, build_spelling j, deliver]
  | (k, j) :: m :: rest, done, fs, _ => by
      have hkey : buildStep (.running (.members done :: fs) .key) (.scalar (.str k)) =
        some (.running (.pair done k :: fs) .colon) := rfl
      have hcolon : buildStep (.running (.pair done k :: fs) .colon) .colon =
        some (.running (.pair done k :: fs) .value) := rfl
      have hcomma : buildStep (.running (.members ((k, j) :: done) :: fs) .more) .comma =
        some (.running (.members ((k, j) :: done) :: fs) .key) := rfl
      have hrest := build_spellingMembers (m :: rest) ((k, j) :: done) fs (by simp)
      simp [spellingMembers, hkey, hcolon, build_spelling j, deliver, hcomma, hrest]

end

theorem build?_spelling (j : Json) : build? j.spelling = some j := by
  rw [build?, build_spelling]
  rfl

/-- A value is read from octets that are scanned into its tokens. -/
theorem parse?_of_scans {bs : Bytes} {j : Json} (h : Scans bs j.spelling) : parse? bs = some j := by
  rw [parse?, tokens?_of_scans h, Option.bind_some, build?_spelling]

/-- A plain value is read back from its written form. -/
theorem parse?_render {j : Json} (h : j.isPlain = true) : parse? j.render = some j :=
  parse?_of_scans (scans_render j h)

/-! ## With blanks between the tokens -/

/-- Blanks before a token are skipped. -/
theorem Scans.blanks_append {bs blanks : Bytes} {ts : List Token} (h : Scans bs ts)
    (hblanks : ∀ b ∈ blanks, isBlank b = true) : Scans (blanks ++ bs) ts := by
  intro before
  have hskip : blanks.foldlM scanStep (before, .between) = some (before, .between) := by
    induction blanks with
    | nil => rfl
    | cons b blanks ih =>
        have hb : scanStep (before, .between) b = some (before, .between) := by
          rw [scanStep, scanBetween, if_pos (hblanks b List.mem_cons_self)]
        rw [List.foldlM_cons, hb]
        exact ih fun b' hb' => hblanks b' (List.mem_cons_of_mem _ hb')
  obtain ⟨st, hst, hsettled⟩ := h before
  refine ⟨st, ?_, hsettled⟩
  rw [List.foldlM_append, hskip]
  exact hst

/-- Blanks after a token end it. -/
theorem Scans.append_blanks {bs blanks : Bytes} {ts : List Token} (h : Scans bs ts)
    (hblanks : ∀ b ∈ blanks, isBlank b = true) : Scans (bs ++ blanks) ts := by
  induction blanks using List.reverseRecOn with
  | nil => rwa [List.append_nil]
  | append_singleton blanks b ih =>
      have hb : isBlank b = true := hblanks b (by simp)
      have hbs := ih fun b' hb' => hblanks b' (List.mem_append_left _ hb')
      intro before
      obtain ⟨st, hst, hsettled⟩ := hbs before
      refine ⟨(ts.reverse ++ before, .between), ?_, rfl⟩
      have hstep : scanStep st b = some (ts.reverse ++ before, .between) := by
        rw [hsettled.step (isWordOctet_of_blank (.inl hb)), scanBetween, if_pos hb]
      rw [← List.append_assoc, List.foldlM_append, hst]
      simp [hstep]

theorem isBlank_of_mem_newline (level : Nat) {b : UInt8} (h : b ∈ newline level) : isBlank b = true := by
  rw [newline, List.mem_cons, List.mem_replicate] at h
  rcases h with rfl | ⟨-, rfl⟩ <;> rfl

theorem isBlank_of_mem_space {b : UInt8} (h : b ∈ [octet ' ']) : isBlank b = true := by
  rw [List.mem_singleton.mp h]
  rfl

mutual

theorem scans_renderPretty (level : Nat) : (j : Json) → j.isPlain = true →
    Scans (j.renderPretty level) j.spelling
  | .null, h => scans_render .null h
  | .bool b, h => by
      cases b <;> exact scans_render (.bool _) h
  | .int n, h => scans_render (.int n) h
  | .str (some s), _ => scans_quote s
  | .arr [], h => scans_render (.arr []) h
  | .obj [], h => scans_render (.obj []) h
  | .arr (j :: rest), h => by
      have hitems := scans_prettyItems (level + 1) (j :: rest) h
      have hlines := hitems.append_blanks fun _ => isBlank_of_mem_newline level
      have hopen := scans_nil.between '[' rfl hlines
      simpa [renderPretty, spelling] using hopen.between ']' rfl scans_nil
  | .obj (m :: rest), h => by
      have hmembers := scans_prettyMembers (level + 1) (m :: rest) h
      have hlines := hmembers.append_blanks fun _ => isBlank_of_mem_newline level
      have hopen := scans_nil.between '{' rfl hlines
      simpa [renderPretty, spelling] using hopen.between '}' rfl scans_nil

theorem scans_prettyItems (level : Nat) : (js : List Json) → arePlain js = true →
    Scans (prettyItems level js) (spellingItems js)
  | [], _ => scans_nil
  | [j], h => by
      rw [arePlain, Bool.and_eq_true] at h
      exact (scans_renderPretty level j h.1).blanks_append fun _ => isBlank_of_mem_newline level
  | j :: j' :: rest, h => by
      rw [arePlain, Bool.and_eq_true] at h
      have hitem := (scans_renderPretty level j h.1).blanks_append
        fun _ => isBlank_of_mem_newline level
      exact hitem.between ',' rfl (scans_prettyItems level (j' :: rest) h.2)

theorem scans_prettyMembers (level : Nat) : (ms : List (Option String × Json)) →
    arePlainMembers ms = true → Scans (prettyMembers level ms) (spellingMembers ms)
  | [], _ => scans_nil
  | [(some k, j)], h => by
      simp only [arePlainMembers, Bool.and_eq_true] at h
      have hvalue := (scans_renderPretty level j h.1.2).blanks_append fun _ => isBlank_of_mem_space
      have hkey := (scans_quote k).blanks_append fun _ => isBlank_of_mem_newline level
      simpa [prettyMembers, spellingMembers, ascii] using hkey.between ':' rfl hvalue
  | (some k, j) :: m :: rest, h => by
      rw [arePlainMembers, Bool.and_eq_true, Bool.and_eq_true] at h
      have hvalue := (scans_renderPretty level j h.1.2).blanks_append fun _ => isBlank_of_mem_space
      have hkey := (scans_quote k).blanks_append fun _ => isBlank_of_mem_newline level
      have hall := (hkey.between ':' rfl hvalue).between ',' rfl (scans_prettyMembers level (m :: rest) h.2)
      simpa [prettyMembers, spellingMembers, ascii] using hall

end

/-- A plain value is read back from its form with one member a line. -/
theorem parse?_renderPretty {j : Json} (h : j.isPlain = true) (level : Nat) :
    parse? (j.renderPretty level) = some j :=
  parse?_of_scans (scans_renderPretty level j h)

end EdgeFleet.Json
