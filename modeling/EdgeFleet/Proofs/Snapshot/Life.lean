import EdgeFleet.Proofs.Snapshot.Cycle

/-! # The life of an engine

An engine runs one cycle after the other. In each of them any tries may fail, in any order, and between two
cycles the store may fail or recover. At the end of every cycle the engine knows by name all that is left in
the namespace, so no chunk is forgotten there.

A generation is a number of 64 bits. What becomes of the engine when it counts past the greatest one is left
open here: its chunks are known by their names, whatever their numbers are.
-/

namespace EdgeFleet.Engine

section

variable {σ : Type} [ChunkStore σ]

/-- The engine with another number for its generation. -/
def numbered (e : Engine) (g : Nat) : Engine := { e with generation := g }

/-- The cycles that an engine has completed, the first one first, with the engine and the store after them.
After a cycle of generation `g` it goes on with `count g`, and from one cycle to the next the store changes as
`still` allows. -/
inductive Life (count : Nat → Nat) (still : σ → σ → Prop) (e₀ : Engine) (s₀ : σ) :
    List (Cycle σ) → Engine → σ → Prop
  | begins : Life count still e₀ s₀ [] e₀ s₀
  | pause {cs e s s'} (h : Life count still e₀ s₀ cs e s) (hstill : still s s') :
      Life count still e₀ s₀ cs e s'
  | cycle {cs e s} (h : Life count still e₀ s₀ cs e s) {fleet : Fleet} {dispatcher : Dispatcher}
      {now : Timestamp} {c : Cycle σ} (hcycles : e.Cycles fleet s dispatcher now c) :
      Life count still e₀ s₀ (cs ++ [c]) (c.engine.numbered (count e.generation)) c.store

/-- The names of the chunks that a cycle has created. -/
def written (c : Cycle σ) : List String := c.engine.previous.drop c.report.deletesFailed

/-! ## Numbers and names -/

section

variable {e : Engine} {fleet : Fleet} {store : σ} {dispatcher : Dispatcher} {now : Timestamp} {c : Cycle σ}

theorem Cycles.settings (h : e.Cycles fleet store dispatcher now c) : c.engine.settings = e.settings := by
  cases h
  rfl

theorem Cycles.generation (h : e.Cycles fleet store dispatcher now c) :
    c.report.generation = e.generation ∧ c.engine.generation = e.generation + 1 := by
  cases h
  exact ⟨rfl, rfl⟩

omit [ChunkStore σ] in
theorem written_conclude (e : Engine) (fleet : Fleet) (sweep : Sweep) (payload stored : Bytes)
    (deletes : Batch σ String) (creates : Batch σ Chunk) (dispatcher : Dispatcher) :
    written (e.conclude fleet sweep payload stored (.of deletes creates) dispatcher) =
      creates.succeeded.map (·.name) :=
  List.drop_left

/-- A cycle creates chunks of its own generation, each once, and reports how many there are. -/
theorem Cycles.written_spec (h : e.Cycles fleet store dispatcher now c) :
    (written c).length = c.report.chunksWritten ∧ (written c).Nodup ∧
      ∀ name ∈ written c, ∃ i, name = Chunk.nameOf e.generation i := by
  cases h with
  | @of_steps _ creates _ _ hsteps _ =>
      have hsubperm := hsteps.accounts.succeeded_subperm
      rw [written_conclude]
      refine ⟨List.length_map _, ?_, fun name hname => ?_⟩
      · obtain ⟨l, hperm, hsublist⟩ := hsubperm
        exact (hperm.map _).nodup_iff.mp (nodup_names_chunksOf.sublist (hsublist.map _))
      · obtain ⟨c, hc, rfl⟩ := List.mem_map.mp hname
        obtain ⟨i, piece, -, rfl⟩ := mem_chunksOf.mp (hsubperm.subset hc)
        exact ⟨i, rfl⟩

end

/-- A count of 64 bits, which goes up by one as long as it can. -/
def Counts (count : Nat → Nat) : Prop := ∀ g, g + 1 < UInt64.size → count g = g + 1

theorem Cycles.numbered_eq {e : Engine} {fleet : Fleet} {store : σ} {dispatcher : Dispatcher} {now : Timestamp}
    {c : Cycle σ} (h : e.Cycles fleet store dispatcher now c) {g : Nat} (hg : g = e.generation + 1) :
    c.engine.numbered g = c.engine := by
  rw [hg, ← h.generation.2, numbered]

variable {count : Nat → Nat} {still : σ → σ → Prop} {e₀ e : Engine} {s₀ s : σ} {cs : List (Cycle σ)}

theorem Life.settings (h : Life count still e₀ s₀ cs e s) : e.settings = e₀.settings := by
  induction h with
  | begins => rfl
  | pause _ _ ih => exact ih
  | cycle _ hcycles ih => exact hcycles.settings.trans ih

/-- The names that are written in a life are those of generations that it has come by. -/
structure Life.Numbers (e₀ : Engine) (cs : List (Cycle σ)) (e : Engine) : Prop where
  generation : e.generation = e₀.generation + cs.length
  cycles : ∀ n c, cs[n]? = some c → c.report.generation = e₀.generation + n
  nodup : (cs.flatMap written).Nodup
  names : ∀ name ∈ cs.flatMap written, ∃ g i, name = Chunk.nameOf g i ∧ g < e.generation

theorem Life.numbers (hcount : Counts count) (h : Life count still e₀ s₀ cs e s)
    (hfits : e₀.generation + cs.length < UInt64.size) : Life.Numbers e₀ cs e := by
  induction h with
  | begins => exact ⟨rfl, nofun, .nil, nofun⟩
  | pause _ _ ih => exact ih hfits
  | @cycle cs e s h _ _ _ c hcycles ih =>
      rw [List.length_append, List.length_singleton, ← Nat.add_assoc] at hfits
      obtain ⟨hgeneration, hnumbered, hnodup, hnames⟩ := ih (Nat.lt_of_succ_lt hfits)
      obtain ⟨-, hnodup', hnames'⟩ := hcycles.written_spec
      have hnext : count e.generation = e.generation + 1 := hcount _ (hgeneration ▸ hfits)
      rw [numbered, hnext]
      refine ⟨?_, fun n c' hc' => ?_, ?_, fun name hname => ?_⟩
      · rw [List.length_append, hgeneration]
        rfl
      · rcases Nat.lt_or_ge n cs.length with hn | hn
        · exact hnumbered n c' (List.getElem?_append_left hn ▸ hc')
        · obtain ⟨hlength, rfl⟩ := List.getElem?_eq_some_iff.mp hc'
          obtain rfl : n = cs.length := by
            rw [List.length_append, List.length_singleton] at hlength
            omega
          rw [List.getElem_concat_length rfl, hcycles.generation.1, hgeneration]
      · rw [List.flatMap_append, List.flatMap_singleton]
        refine hnodup.append hnodup' fun name hname hname' => ?_
        obtain ⟨g, i, rfl, hg⟩ := hnames name hname
        obtain ⟨i', heq⟩ := hnames' _ hname'
        have hsame := (Chunk.nameOf_injective heq).1
        omega
      · rw [List.flatMap_append, List.flatMap_singleton] at hname
        rcases List.mem_append.mp hname with hname | hname
        · obtain ⟨g, i, rfl, hg⟩ := hnames name hname
          exact ⟨g, i, rfl, Nat.lt_succ_of_lt hg⟩
        · obtain ⟨i, rfl⟩ := hnames' name hname
          exact ⟨e.generation, i, rfl, Nat.lt_succ_self _⟩

end

/-! ## What is left in the store -/

variable {σ : Type} [ChunkStore σ] [LawfulStore σ]

/-- The engine knows by name all that its namespace holds. -/
def Knows (e : Engine) (s : σ) : Prop :=
  ∀ c, LawfulStore.Holds e.settings.ns s c → c.name ∈ e.previous

/-- The namespace holds as much as before, whether the store can be reached or not. -/
def SameChunks (ns : String) (s s' : σ) : Prop :=
  LawfulStore.Valid ns s' ∧ ∀ c, LawfulStore.Holds ns s' c ↔ LawfulStore.Holds ns s c

/-- An engine begins anew where nothing is held, or goes on after what it has read. After the greatest number
of all it may go on with any. -/
inductive Begins : Engine → σ → Prop
  | anew {settings : SnapshotSettings} {s : σ} (hvalid : LawfulStore.Valid settings.ns s)
      (hnone : ∀ c, ¬LawfulStore.Holds settings.ns s c) : Begins (.start settings) s
  | resumed {settings : SnapshotSettings} {codec : Codec} {s : σ} {r : Restored} {g : Nat}
      (hvalid : LawfulStore.Valid settings.ns s) (hr : restore s settings.ns codec = .ok r)
      (hg : r.nextGeneration < UInt64.size → g = r.nextGeneration) :
      Begins ((resume settings r).numbered g) s

theorem Begins.spec {e : Engine} {s : σ} (h : Begins e s) :
    LawfulStore.Valid e.settings.ns s ∧ e.Knows s := by
  cases h with
  | anew hvalid hnone => exact ⟨hvalid, fun c hc => absurd hc (hnone c)⟩
  | resumed hvalid hr _ =>
      obtain ⟨cs, hlist, rfl⟩ := restore_eq_ok.mp hr
      exact ⟨hvalid, fun c hc => List.mem_map.mpr ⟨c, (LawfulStore.mem_list hvalid hlist).mpr hc, rfl⟩⟩

/-- A cycle of an engine that knows all there is, whatever fails in it: afterwards the engine again knows
all there is. If all deletions went well, what the cycle has created is all there is. -/
theorem Cycles.knows {e : Engine} {fleet : Fleet} {s : σ} {dispatcher : Dispatcher} {now : Timestamp}
    {c : Cycle σ} (h : e.Cycles fleet s dispatcher now c) (hvalid : LawfulStore.Valid e.settings.ns s)
    (hknows : e.Knows s) :
    LawfulStore.Valid c.engine.settings.ns c.store ∧ c.engine.Knows c.store ∧
      (c.report.deletesFailed = 0 → ∃ held : List Chunk, held.map (·.name) = written c ∧
        (∀ c', LawfulStore.Holds e.settings.ns c.store c' ↔ c' ∈ held) ∧
        ∀ c' ∈ held, c' ∈ e.chunksToStore fleet now) := by
  cases h with
  | @of_steps deletes creates hdeletes hdeleted hcreates hcreated =>
      have hshrinks := hdeletes.shrinks hvalid
      have hgrows := hcreates.grows hshrinks.valid Batch.creatable_chunksOf (.start ..)
      -- What was there before and still is could not be deleted.
      have hleft : ∀ c', LawfulStore.Holds e.settings.ns creates.store c' →
          c'.name ∈ deletes.failed ∨ c' ∈ creates.succeeded := by
        intro c' hc'
        refine (hgrows.holds c' hc').imp_left fun hold => ?_
        have hname := hknows c' (hshrinks.holds c' hold)
        refine (hdeletes.accounts.succeeded_or_failed hdeleted hname).resolve_left fun hgone => ?_
        exact List.not_mem_nil (hshrinks.gone c' hold hgone)
      refine ⟨hgrows.valid, fun c' hc' => ?_, fun hnofail => ?_⟩
      · exact List.mem_append.mpr ((hleft c' hc').imp_right fun hnew => List.mem_map.mpr ⟨c', hnew, rfl⟩)
      · have hfailed : deletes.failed = [] := List.length_eq_zero_iff.mp hnofail
        refine ⟨creates.succeeded, (written_conclude ..).symm, fun c' => ⟨fun hc' => ?_, fun hc' => ?_⟩,
          hcreates.accounts.succeeded_subperm.subset⟩
        · refine (hleft c' hc').resolve_left ?_
          rw [hfailed]
          exact List.not_mem_nil
        · exact (hgrows.added c' hc').resolve_left List.not_mem_nil

section

variable {count : Nat → Nat} {e₀ e : Engine} {s₀ s : σ} {cs : List (Cycle σ)}

theorem Life.knows (hbegins : Begins e₀ s₀) (h : Life count (SameChunks e₀.settings.ns) e₀ s₀ cs e s) :
    LawfulStore.Valid e.settings.ns s ∧ e.Knows s := by
  induction h with
  | begins => exact hbegins.spec
  | pause h hsame ih =>
      obtain ⟨hvalid, hholds⟩ := hsame
      refine ⟨h.settings ▸ hvalid, fun c hc => ih.2 c ?_⟩
      rw [h.settings] at hc ⊢
      exact (hholds c).mp hc
  | cycle _ hcycles ih =>
      obtain ⟨hvalid, hknows, -⟩ := hcycles.knows ih.1 ih.2
      exact ⟨hvalid, hknows⟩

end

end EdgeFleet.Engine
