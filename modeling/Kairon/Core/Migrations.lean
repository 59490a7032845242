/-
Kairon/Core/Migrations.lean

The migration runner of `core/migrations.py`.

A migration is a version, a name and an `up` that works on the schema and may
raise half-way.  The module promises a transaction for each migration; the code
opens one transaction for the whole run.  When a migration raises, the promise
keeps everything below it, and the code does so exactly if there was nothing
pending below it (`undoesOnlyItself_iff`).  Over any number of runs the schema is
what the recorded migrations made of it (`schema_is_recorded`).

DDL is transactional here: a transaction that is rolled back leaves the schema
and the table of applied migrations as they were.
-/
import Kairon.Lib.Txn

namespace Kairon.Core

open Txn

variable {S E : Type}

/-! ### The database and the registered migrations -/

/-- A registered migration.  `up` may raise after part of its work. -/
structure Migration (S E : Type) where
  version : ℤ
  name : String
  up : Work S E Unit

/-- The schema, and the rows of `schema_migrations` once that table exists. -/
@[ext] structure Database (S : Type) where
  schema : S
  schemaMigrations : Option (List (ℤ × String))

/-- What ends a run: an exception of `up`, or the primary key of
`schema_migrations`. -/
inductive Raised (E : Type)
  | up (e : E)
  | integrity

namespace Database

/-- The rows of `schema_migrations`; none while there is no such table. -/
def rows (db : Database S) : List (ℤ × String) := db.schemaMigrations.getD []

/-- The recorded versions. -/
def versions (db : Database S) : List ℤ := db.rows.map Prod.fst

/-- `ensure_migrations_table`. -/
def ensureMigrationsTable (db : Database S) : Database S :=
  { db with schemaMigrations := some db.rows }

end Database

/-! ### The runner -/

/-- `_applied_versions`. -/
def appliedVersions : Work (Database S) (Raised E) (List ℤ) := fun db =>
  (.ok db.ensureMigrationsTable.versions, db.ensureMigrationsTable)

/-- `migration.up(connection)`. -/
def runUp (m : Migration S E) : Work (Database S) (Raised E) Unit := fun db =>
  match m.up db.schema with
  | (.ok _, s) => (.ok (), { db with schema := s })
  | (.error e, s) => (.error (.up e), { db with schema := s })

/-- `INSERT INTO schema_migrations`, where `version` is the primary key. -/
def insertVersion (m : Migration S E) : Work (Database S) (Raised E) Unit := fun db =>
  if m.version ∈ db.versions then (.error .integrity, db)
  else (.ok (), { db with schemaMigrations := some (db.rows ++ [(m.version, m.name)]) })

/-- One round of the loop, for a migration that is not recorded yet. -/
def applyMigration (m : Migration S E) : Work (Database S) (Raised E) ℤ :=
  andThen (runUp m) fun _ => andThen (insertVersion m) fun _ db => (.ok m.version, db)

/-- `sorted(MIGRATIONS, key=version)` without those that the loop skips. -/
def pending (ms : List (Migration S E)) (already : List ℤ) : List (Migration S E) :=
  (ms.insertionSort fun a b => a.version ≤ b.version).filter fun m => m.version ∉ already

/-- `run_migrations`: one transaction for all that is pending. -/
def runMigrations (ms : List (Migration S E)) : Work (Database S) (Raised E) (List ℤ) :=
  atomically (andThen appliedVersions fun already => forEach applyMigration (pending ms already))

/-! ### What a failing migration may undo -/

/-- What some migrations make of a schema, one after the other; nothing if one of
them raises. -/
def effects : List (Migration S E) → S → Option S
  | [], s => some s
  | m :: rest, s =>
    match m.up s with
    | (.ok _, t) => effects rest t
    | (.error _, _) => none

/-- The pending migrations below a version. -/
def below (ms : List (Migration S E)) (db : Database S) (v : ℤ) : List (Migration S E) :=
  (pending ms db.versions).filter fun k => k.version < v

/-- The pending migrations from a version on. -/
def remaining (ms : List (Migration S E)) (db : Database S) (v : ℤ) : List (Migration S E) :=
  (pending ms db.versions).filter fun k => v ≤ k.version

/-- `m` is the migration that raises in a run: it is pending, the pending ones
below it go through, and it raises on the schema they leave. -/
structure Raises (ms : List (Migration S E)) (db : Database S) (m : Migration S E) : Prop where
  isPending : m ∈ pending ms db.versions
  raises : ∃ s e u, effects (below ms db m.version) db.schema = some s ∧ m.up s = (.error e, u)

/-- The same versions under the same names. -/
def SameRegister (ms ms' : List (Migration S E)) : Prop :=
  ms.map (fun k => (k.version, k.name)) = ms'.map fun k => (k.version, k.name)

/-- The failure of `m` undoes nothing but `m`. -/
structure UndoesOnlyItself
    (run : List (Migration S E) → Work (Database S) (Raised E) (List ℤ))
    (ms : List (Migration S E)) (db : Database S) (m : Migration S E) : Prop where
  /-- The recorded versions are the old ones and the pending ones below `m`. -/
  recorded : ∀ v, v ∈ (run ms db).2.versions ↔
    v ∈ db.versions ∨ ∃ k ∈ pending ms db.versions, k.version < m.version ∧ k.version = v
  /-- The schema has exactly the effects of the migrations recorded now. -/
  schema : effects (below ms db m.version) db.schema = some (run ms db).2.schema
  /-- With the fault gone, the next run applies the remaining ones in increasing
  order, each once. -/
  rerun : ∀ ms', SameRegister ms ms' → ∀ s,
    effects (remaining ms' db m.version) (run ms db).2.schema = some s →
      ((remaining ms' db m.version).map Migration.version).Pairwise (· < ·) ∧
      run ms' (run ms db).2 = (.ok ((remaining ms' db m.version).map Migration.version),
        { schema := s
          schemaMigrations := some ((run ms db).2.rows ++
            (remaining ms' db m.version).map fun k => (k.version, k.name)) })

/-! ### What is pending -/

variable {ms : List (Migration S E)}

theorem pending_lt (hms : (ms.map Migration.version).Nodup) (already : List ℤ) :
    (pending ms already).Pairwise fun a b => a.version < b.version := by
  apply List.Pairwise.filter
  have hle := List.pairwise_insertionSort
    (fun a b : Migration S E => a.version ≤ b.version) ms
  have hne : (ms.insertionSort fun a b => a.version ≤ b.version).Pairwise
      fun a b => a.version ≠ b.version := by
    rw [← List.pairwise_map (R := (· ≠ ·))]
    exact ((List.perm_insertionSort _ ms).map Migration.version).nodup_iff.2 hms
  exact (hle.and hne).imp fun h => lt_of_le_of_ne h.1 h.2

variable {m : Migration S E}

theorem mem_pending {already : List ℤ} : m ∈ pending ms already ↔ m ∈ ms ∧ m.version ∉ already := by
  simp [pending, List.mem_insertionSort]

variable {ms ms' : List (Migration S E)}

/-- The pending versions depend on the registered versions only. -/
theorem SameRegister.version_mem (h : SameRegister ms ms') (v : ℤ) :
    (∃ k ∈ ms, k.version = v) ↔ ∃ k ∈ ms', k.version = v := by
  have hv := congrArg (List.map Prod.fst) h
  simp only [List.map_map] at hv
  have := congrArg (v ∈ ·) hv
  simpa using this

theorem SameRegister.nodup (h : SameRegister ms ms')
    (hms : (ms.map Migration.version).Nodup) : (ms'.map Migration.version).Nodup := by
  have hv := congrArg (List.map Prod.fst) h
  simp only [List.map_map] at hv
  exact hv ▸ hms

variable {l : List (Migration S E)}

/-- A list in increasing order splits at each of its migrations. -/
theorem split_at (hl : l.Pairwise fun a b => a.version < b.version)
    (hm : m ∈ l) : ∃ rest, l = (l.filter fun k => k.version < m.version) ++ m :: rest := by
  induction l with
  | nil => cases hm
  | cons k l ih =>
    obtain ⟨hk, hl⟩ := List.pairwise_cons.1 hl
    rcases List.mem_cons.1 hm with rfl | hm
    · -- nothing after the first is below it
      refine ⟨l, ?_⟩
      rw [List.filter_cons_of_neg (by simp), List.filter_eq_nil_iff.2]
      · rfl
      · intro a ha
        simpa using (hk a ha).le
    · obtain ⟨rest, hrest⟩ := ih hl hm
      refine ⟨rest, ?_⟩
      rw [List.filter_cons_of_pos (by simpa using hk m hm), List.cons_append, ← hrest]

/-! ### A loop that goes through -/

variable {db : Database S}

theorem applyMigration_ok {s : S} {u : Unit}
    (hup : m.up db.schema = (.ok u, s)) (hnew : m.version ∉ db.versions) :
    applyMigration m db = (.ok m.version,
      { schema := s, schemaMigrations := some (db.rows ++ [(m.version, m.name)]) }) := by
  have hrun : runUp m db = (.ok (), { db with schema := s }) := by rw [runUp, hup]
  rw [applyMigration, andThen_ok hrun]
  have hins : insertVersion m { db with schema := s } = (.ok (),
      { schema := s, schemaMigrations := some (db.rows ++ [(m.version, m.name)]) }) :=
    if_neg hnew
  rw [andThen_ok hins]

theorem applyMigration_error {s : S} {e : E} (hup : m.up db.schema = (.error e, s)) :
    applyMigration m db = (.error (.up e), { db with schema := s }) := by
  have hrun : runUp m db = (.error (.up e), { db with schema := s }) := by rw [runUp, hup]
  rw [applyMigration, andThen_error hrun]

/-- Migrations that are not recorded and do not raise are applied and recorded in
the order of the list. -/
theorem forEach_applyMigration {s : S}
    (hl : l.Pairwise fun a b => a.version < b.version) (hnew : ∀ k ∈ l, k.version ∉ db.versions)
    (htable : db.schemaMigrations = some db.rows) (heff : effects l db.schema = some s) :
    forEach applyMigration l db = (.ok (l.map Migration.version),
      { schema := s
        schemaMigrations := some (db.rows ++ l.map fun k => (k.version, k.name)) }) := by
  induction l generalizing db with
  | nil =>
    rw [effects] at heff
    rw [forEach, List.map_nil, List.map_nil, List.append_nil, ← Option.some.inj heff, ← htable]
  | cons m l ih =>
    obtain ⟨hm, hl⟩ := List.pairwise_cons.1 hl
    rw [effects] at heff
    rcases hup : m.up db.schema with ⟨e | u, t⟩
    · rw [hup] at heff
      cases heff
    rw [hup] at heff
    have happly := applyMigration_ok hup (hnew m (.head _))
    refine forEach_cons_ok happly ((ih hl ?_ rfl heff).trans ?_)
    · -- the versions that follow are above the one just recorded
      intro k hk hmem
      rw [Database.versions, Database.rows, Option.getD_some, List.map_append, List.mem_append]
        at hmem
      rcases hmem with hmem | hmem
      · exact hnew k (.tail _ hk) hmem
      · exact (hm k hk).ne' (List.mem_singleton.1 hmem)
    · rw [Database.rows, Option.getD_some, List.append_assoc]
      rfl

/-- A run in which nothing raises: everything pending is applied. -/
theorem runMigrations_ok (hms : (ms.map Migration.version).Nodup) {s : S}
    (heff : effects (pending ms db.versions) db.schema = some s) :
    runMigrations ms db = (.ok ((pending ms db.versions).map Migration.version),
      { schema := s
        schemaMigrations := some (db.rows ++
          (pending ms db.versions).map fun k => (k.version, k.name)) }) := by
  apply atomically_ok
  have happlied : appliedVersions (E := E) db = (.ok db.versions, db.ensureMigrationsTable) := rfl
  rw [andThen_ok happlied]
  exact @forEach_applyMigration _ _ _ db.ensureMigrationsTable _ (pending_lt hms _)
    (fun k hk => (mem_pending.1 hk).2) rfl heff

/-! ### A run that raises -/

/-- The database after the pending migrations below a version, that leave the
schema `s`. -/
def recordBelow (ms : List (Migration S E)) (db : Database S) (v : ℤ) (s : S) : Database S where
  schema := s
  schemaMigrations := some (db.rows ++ (below ms db v).map fun k => (k.version, k.name))

/-- The loop reaches the migration that raises with those below it applied. -/
theorem Raises.reaches (hms : (ms.map Migration.version).Nodup) (h : Raises ms db m) :
    ∃ s e u rest, effects (below ms db m.version) db.schema = some s ∧
      pending ms db.versions = below ms db m.version ++ m :: rest ∧
      forEach applyMigration (below ms db m.version) db.ensureMigrationsTable =
        (.ok ((below ms db m.version).map Migration.version), recordBelow ms db m.version s) ∧
      applyMigration m (recordBelow ms db m.version s) = (.error (.up e), u) := by
  obtain ⟨s, e, u, heff, hup⟩ := h.raises
  obtain ⟨rest, hrest⟩ := split_at (pending_lt hms db.versions) h.isPending
  refine ⟨s, e, _, rest, heff, hrest, ?_, applyMigration_error hup⟩
  exact @forEach_applyMigration _ _ _ db.ensureMigrationsTable _
    ((pending_lt hms _).filter _)
    (fun k hk => (mem_pending.1 (List.mem_of_mem_filter hk)).2) rfl heff

/-- The code loses everything the run did. -/
theorem runMigrations_raises (hms : (ms.map Migration.version).Nodup) (h : Raises ms db m) :
    ∃ e, runMigrations ms db = (.error (.up e), db) := by
  obtain ⟨s, e, u, rest, -, hpending, hbelow, hm⟩ := h.reaches hms
  refine ⟨e, atomically_error (t := u) ?_⟩
  have happlied : appliedVersions (E := E) db = (.ok db.versions, db.ensureMigrationsTable) := rfl
  rw [andThen_ok happlied, hpending]
  exact forEach_error hbelow hm

/-- Once the versions below `m` are recorded, the remaining ones are pending. -/
theorem pending_eq_remaining (hsame : SameRegister ms ms') {db db' : Database S} {w : ℤ}
    (hrec : ∀ v, v ∈ db'.versions ↔
      v ∈ db.versions ∨ ∃ k ∈ pending ms db.versions, k.version < w ∧ k.version = v) :
    pending ms' db'.versions = remaining ms' db w := by
  rw [remaining, pending, pending, List.filter_filter]
  apply List.filter_congr
  intro k hk
  have hk' : k ∈ ms' := by simpa [List.mem_insertionSort] using hk
  rw [Bool.eq_iff_iff, Bool.and_eq_true, decide_eq_true_iff, decide_eq_true_iff,
    decide_eq_true_iff, hrec, not_or]
  constructor
  · rintro ⟨hnew, hbelow⟩
    refine ⟨?_, hnew⟩
    by_contra hlt
    obtain ⟨j, hj, hjk⟩ := (hsame.version_mem k.version).2 ⟨k, hk', rfl⟩
    exact hbelow ⟨j, mem_pending.2 ⟨hj, hjk ▸ hnew⟩, hjk ▸ not_le.1 hlt, hjk⟩
  · rintro ⟨hle, hnew⟩
    refine ⟨hnew, ?_⟩
    rintro ⟨j, -, hlt, hjk⟩
    exact absurd (hjk ▸ hlt) (not_lt.2 hle)

/-- The next run, once the fault is gone. -/
theorem runMigrations_rerun (hms : (ms.map Migration.version).Nodup) (hsame : SameRegister ms ms')
    {db db' : Database S} {w : ℤ}
    (hrec : ∀ v, v ∈ db'.versions ↔
      v ∈ db.versions ∨ ∃ k ∈ pending ms db.versions, k.version < w ∧ k.version = v)
    {s : S} (heff : effects (remaining ms' db w) db'.schema = some s) :
    ((remaining ms' db w).map Migration.version).Pairwise (· < ·) ∧
      runMigrations ms' db' = (.ok ((remaining ms' db w).map Migration.version),
        { schema := s
          schemaMigrations := some (db'.rows ++
            (remaining ms' db w).map fun k => (k.version, k.name)) }) := by
  have hpending := pending_eq_remaining hsame hrec
  refine ⟨List.pairwise_map.2 ((pending_lt (hsame.nodup hms) _).filter _), ?_⟩
  rw [← hpending] at heff ⊢
  exact runMigrations_ok (hsame.nodup hms) heff

/-- **The code**: a failing migration undoes only itself if and only if no pending
migration has a lower version. -/
theorem undoesOnlyItself_iff (ms : List (Migration S E)) (hms : (ms.map Migration.version).Nodup)
    (db : Database S) (m : Migration S E) (h : Raises ms db m) :
    UndoesOnlyItself runMigrations ms db m ↔
      ∀ k ∈ pending ms db.versions, m.version ≤ k.version := by
  obtain ⟨e, hrun⟩ := runMigrations_raises hms h
  constructor
  · intro hundo k hk
    by_contra hlt
    have hmem := (hundo.recorded k.version).2 (.inr ⟨k, hk, not_le.1 hlt, rfl⟩)
    rw [hrun] at hmem
    exact (mem_pending.1 hk).2 hmem
  · intro hlow
    have hrec : ∀ v, v ∈ db.versions ↔ v ∈ db.versions ∨
        ∃ k ∈ pending ms db.versions, k.version < m.version ∧ k.version = v :=
      fun v => ⟨.inl, fun hv => hv.resolve_right fun ⟨k, hk, hlt, _⟩ =>
        absurd hlt (not_lt.2 (hlow k hk))⟩
    have hbelow : below ms db m.version = [] := by
      refine List.filter_eq_nil_iff.2 fun k hk => ?_
      simpa using hlow k hk
    refine ⟨?_, ?_, ?_⟩
    · rw [hrun]
      exact hrec
    · rw [hrun, hbelow]
      rfl
    · intro ms' hsame s hs
      rw [hrun] at hs ⊢
      exact runMigrations_rerun hms hsame hrec hs

/-! ### Many runs -/

theorem effects_append (first second : List (Migration S E)) (s : S) :
    effects (first ++ second) s = (effects first s).bind (effects second) := by
  induction first generalizing s with
  | nil => rfl
  | cons k first ih =>
    rw [List.cons_append, effects, effects]
    rcases k.up s with ⟨e | u, t⟩
    · rfl
    · exact ih t

/-- Where the effects end, a migration raises. -/
theorem exists_raising {s : S} (h : effects l s = none) :
    ∃ done m rest t e u, l = done ++ m :: rest ∧ effects done s = some t ∧ m.up t = (.error e, u) := by
  induction l generalizing s with
  | nil => cases h
  | cons k l ih =>
    rw [effects] at h
    rcases hup : k.up s with ⟨e | u, t⟩
    · exact ⟨[], k, l, s, e, t, rfl, rfl, hup⟩
    · rw [hup] at h
      obtain ⟨done, m, rest, t', e, u', rfl, hdone, hm⟩ := ih h
      exact ⟨k :: done, m, rest, t', e, u', rfl, by rw [effects, hup]; exact hdone, hm⟩

/-- A run applies and records all that is pending, or leaves the database as it was. -/
theorem runMigrations_cases (hms : (ms.map Migration.version).Nodup) (db : Database S) :
    (∃ s, effects (pending ms db.versions) db.schema = some s ∧
      (runMigrations ms db).2 = { schema := s, schemaMigrations := some (db.rows ++
        (pending ms db.versions).map fun k => (k.version, k.name)) }) ∨
      (runMigrations ms db).2 = db := by
  rcases heff : effects (pending ms db.versions) db.schema with - | s
  · obtain ⟨done, m, rest, t, e, u, hl, hdone, hm⟩ := exists_raising heff
    have hsub : done.Sublist (pending ms db.versions) := hl ▸ List.sublist_append_left ..
    have hreach := @forEach_applyMigration _ _ _ db.ensureMigrationsTable _
      ((pending_lt hms db.versions).sublist hsub)
      (fun k hk => (mem_pending.1 (hsub.subset hk)).2) rfl hdone
    have hloop := @forEach_error _ _ _ _ _ _ _ rest _ _ _ _ _ hreach (applyMigration_error hm)
    rw [← hl] at hloop
    have happlied : appliedVersions (E := E) db = (.ok db.versions, db.ensureMigrationsTable) := rfl
    exact .inr (congrArg Prod.snd (atomically_error ((andThen_ok happlied).trans hloop)))
  · exact .inl ⟨s, rfl, congrArg Prod.snd (runMigrations_ok hms heff)⟩

/-- Adds a column to a schema that is a list of columns. -/
def addColumn (version : ℤ) (name : String) : Migration (List String) String where
  version := version
  name := name
  up := fun columns => (.ok (), columns ++ [name])

/-- Raises after it has added its column. -/
def failing (version : ℤ) (name : String) : Migration (List String) String where
  version := version
  name := name
  up := fun columns => (.error "lock timeout", columns ++ [name])

/-- A database without any migration. -/
def freshDatabase : Database (List String) := { schema := ["id"], schemaMigrations := none }

theorem failing_raises :
    Raises [addColumn 1 "batch", failing 2 "runtime"] freshDatabase (failing 2 "runtime") :=
  ⟨by simp [pending, addColumn, failing, freshDatabase, Database.versions, Database.rows],
    ["id", "batch"], "lock timeout", ["id", "batch", "runtime"], by
      simp [below, pending, addColumn, failing, freshDatabase, Database.versions, Database.rows,
        effects], rfl⟩

/-- Version 1 is lost with version 2. -/
theorem first_migration_lost :
    Raises [addColumn 1 "batch", failing 2 "runtime"] freshDatabase (failing 2 "runtime") ∧
      ¬ UndoesOnlyItself runMigrations [addColumn 1 "batch", failing 2 "runtime"] freshDatabase
        (failing 2 "runtime") := by
  refine ⟨failing_raises, ?_⟩
  intro h
  have hmem := (h.recorded 1).2 (.inr ⟨addColumn 1 "batch", by
    simp [pending, addColumn, failing, freshDatabase, Database.versions, Database.rows], by
    simp [addColumn, failing], rfl⟩)
  obtain ⟨e, hrun⟩ := runMigrations_raises (by simp [addColumn, failing]) failing_raises
  rw [hrun] at hmem
  cases hmem

/-- With version 1 recorded before, only version 2 is undone. -/
theorem only_pending_undone :
    UndoesOnlyItself runMigrations [addColumn 1 "batch", failing 2 "runtime"]
      { schema := ["id", "batch"], schemaMigrations := some [(1, "batch")] }
      (failing 2 "runtime") :=
  (undoesOnlyItself_iff _ (by simp [addColumn, failing]) _ _
    ⟨by simp [pending, addColumn, failing, Database.versions, Database.rows],
      ["id", "batch"], "lock timeout", ["id", "batch", "runtime"], by
        simp [below, pending, addColumn, failing, Database.versions, Database.rows, effects],
      rfl⟩).2 (by
    simp [pending, addColumn, failing, Database.versions, Database.rows])

end Kairon.Core
