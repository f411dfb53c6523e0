import Oxana.Itemized
import Oxana.ProducerSteps

/-!
# What one request writes

A request to enqueue a list is many steps, and the jobs it has written may be
gone before it ends. So what it writes is not read off the store but kept in an
account: for each call of the script that was executed, its envelopes and what
has become of them (`entriesOf`). Every step does to the store what its entries
say (`Explained`), so the account is complete.

`enqueue_writes_once` is the result: no Skip envelope is written after a unique
envelope of the same id, so that each id is written through Skip envelopes at
most once; and `try_enqueue` reports what the account of its own steps says.
-/

namespace Oxana

open Redis Script Interleave

variable {γ : Type} {K : StorageKeys} {destination : JobDestination}

/-! ## The account -/

/-- The envelopes of a call of the script, each with its outcome. -/
def entriesOf (K : StorageKeys) (x : Prog.Event Sent (World γ)) : List (JobEnvelope × Outcome) :=
  match x.label with
  | .request _ => []
  | .submission destination snapshots pending =>
    match (enqueueCall K destination snapshots pending x.pre.store).1 with
    | .ok reply => pending.zip reply.outcomes
    | .error _ => []

/-- The account of a request: its envelopes with their outcomes, call by call. -/
def entries (K : StorageKeys) (tr : List (Prog.Event Sent (World γ))) :
    List (JobEnvelope × Outcome) :=
  tr.flatMap (entriesOf K)

@[simp] theorem entries_append (tr₁ tr₂ : List (Prog.Event Sent (World γ))) :
    entries K (tr₁ ++ tr₂) = entries K tr₁ ++ entries K tr₂ :=
  List.flatMap_append

@[simp] theorem entries_singleton (x : Prog.Event Sent (World γ)) :
    entries K [x] = entriesOf K x :=
  List.flatMap_singleton ..

/-- No other request than a submission has entries. -/
theorem entries_plain (tr : List (Prog.Event Request (World γ))) :
    entries K (tr.map (Prog.Event.relabel Sent.request)) = [] := by
  induction tr with
  | nil => rfl
  | cons x tr ih => exact ih

/-- The envelopes that are not skipped are written, one after the other. -/
def CarriesOut (K : StorageKeys) (destination : JobDestination) (ps : List (JobEnvelope × Outcome))
    (s s' : Store) : Prop :=
  ∃ ws, List.Forall₂ (fun p w => ∃ v, w = writeFor K v p.1)
      (ps.filter fun p => p.2 ≠ .skipped) ws ∧
    forEach ws (commitWrite K.jobs K.schedule K.retry (destination = .schedule)) s = (.ok (), s')

/-- What explains a step of a request for the envelopes `es`. -/
inductive Explained (K : StorageKeys) (destination : JobDestination) (es : List JobEnvelope)
    (x : Prog.Event Sent (World γ)) : Prop where
  /-- it is a command of the pipeline of ordinary jobs -/
  | ordinary {e : JobEnvelope} {c : Script Unit} : e ∈ es → e.jobMeta.unique = false →
      c ∈ ordinaryWrites K destination e → x.post = x.pre.after c → Explained K destination es x
  /-- it does what its entries say -/
  | entries : CarriesOut K destination (entriesOf K x) x.pre.store x.post.store →
      Explained K destination es x

theorem Explained.mono {es es' : List JobEnvelope} {x : Prog.Event Sent (World γ)}
    (h : Explained K destination es x) (hes : ∀ e ∈ es, e ∈ es') :
    Explained K destination es' x := by
  cases h with
  | ordinary he hu hc hpost => exact .ordinary (hes _ he) hu hc hpost
  | entries h => exact .entries h

theorem CarriesOut.nothing {ps : List (JobEnvelope × Outcome)} (hps : ∀ p ∈ ps, p.2 = .skipped)
    {s s' : Store} : CarriesOut K destination ps s s' ↔ s' = s := by
  have hnil : ps.filter (fun p => p.2 ≠ .skipped) = [] :=
    List.filter_eq_nil_iff.mpr fun p hp => by simp [hps p hp]
  rw [CarriesOut, hnil]
  constructor
  · rintro ⟨ws, hws, hrun⟩
    cases hws
    exact (Prod.mk.inj hrun).2.symm
  · rintro rfl
    exact ⟨[], .nil, rfl⟩

/-- A step that only reads has nothing to account for. -/
theorem Explained.read {es : List JobEnvelope} {x : Prog.Event Sent (World γ)}
    (hentries : entriesOf K x = []) (hpost : x.post = x.pre) : Explained K destination es x := by
  refine .entries ((CarriesOut.nothing ?_).mpr (by rw [hpost]))
  rw [hentries]
  exact fun p hp => absurd hp List.not_mem_nil

/-! ## A call of the script -/

/-- The writes of a plan are those of the envelopes that are not skipped. -/
theorem forall₂_planFor (v : View) (es : List JobEnvelope) :
    List.Forall₂ (fun p w => ∃ v, w = writeFor K v p.1)
      ((es.zip (outcomesFor K v es)).filter fun p => p.2 ≠ .skipped) (planFor K v es) := by
  induction es generalizing v with
  | nil => exact .nil
  | cons e es ih =>
    rw [planFor, outcomesFor]
    by_cases hskip : (e.skips && (v e.id).isSome) = true
    · rw [if_pos hskip, if_pos hskip, List.zip_cons_cons, List.filter_cons_of_neg (by simp)]
      exact ih v
    · rw [if_neg hskip, if_neg hskip, List.zip_cons_cons, List.filter_cons_of_pos]
      · exact .cons ⟨v, rfl⟩ (ih _)
      · split <;> simp

/-- **A call of the script** has no effect and reports no outcome, or it reports
one for every envelope and does what it reports. -/
theorem submission_cases {R : List JobId} {m : Snapshots} (hm : m.Of R) {pending : List JobEnvelope}
    (hcov : Covered (· ∈ R) pending) {w : World γ} {x : Prog.Event Sent (World γ)}
    (hx : x = ⟨.submission destination m pending, w,
      w.after (enqueueCall K destination m pending)⟩) :
    (entriesOf K x = [] ∧ x.post = x.pre ∧ ∀ reply,
      (enqueueCall K destination m pending w.store).1 = .ok reply → reply.changed ≠ []) ∨
    ∃ outcomes, (enqueueCall K destination m pending w.store).1 = .ok ⟨[], outcomes⟩ ∧
      entriesOf K x = pending.zip outcomes ∧
      CarriesOut K destination (pending.zip outcomes) x.pre.store x.post.store := by
  subst hx
  have hcov' : Covered (fun id => id ∈ m.ids) pending := hcov.mono fun id h => (hm.ids id).mpr h
  rcases enqueueCall_cases (K := K) destination hcov' (trustingView_agrees (s := w.store) hm.nodup) with
    ⟨msg, hno⟩ | ⟨hne, hstale⟩ | ⟨-, -, Γ, hready, hrun⟩
  · refine .inl ⟨by simp [entriesOf, hno], World.after_read (by rw [hno]), fun reply hreply => ?_⟩
    rw [hno] at hreply
    cases hreply
  · refine .inl ⟨by simp [entriesOf, hstale], World.after_read (by rw [hstale]),
      fun reply hreply => ?_⟩
    rw [hstale] at hreply
    obtain rfl := Except.ok.inj hreply
    exact hne
  · generalize trustingView K pending m w.store = v at hready hrun
    obtain ⟨_, s', hcommit⟩ := hready.total.run hready.typed
    have hcall : enqueueCall K destination m pending w.store =
        (.ok ⟨[], outcomesFor K v pending⟩, s') := hrun.trans (bind_ok hcommit)
    have hentries : entriesOf K (⟨.submission destination m pending, w,
        w.after (enqueueCall K destination m pending)⟩ : Prog.Event Sent (World γ)) =
          pending.zip (outcomesFor K v pending) := by
      simp [entriesOf, hcall]
    refine .inr ⟨outcomesFor K v pending, by rw [hcall], hentries, ?_⟩
    refine ⟨planFor K v pending, forall₂_planFor v pending, ?_⟩
    rw [hcommit, World.after, hcall]

/-! ## The steps between the reads and the end of a chunk -/

section Steps

variable {tr : List (Prog.Event Sent (World γ))} {es pending : List JobEnvelope}

/-- A unique envelope of this id has been written. -/
def WrittenIn (ps : List (JobEnvelope × Outcome)) (id : JobId) : Prop :=
  ∃ p ∈ ps, p.1.jobMeta.unique = true ∧ p.2 ≠ .skipped ∧ p.1.id = id

/-- An id is among those written if an entry says so. -/
theorem mem_writtenOf {outcomes : List Outcome} {id : JobId} :
    id ∈ writtenOf pending outcomes ↔ WrittenIn (pending.zip outcomes) id := by
  simp only [writtenOf, WrittenIn, List.mem_map, List.mem_filter, decide_eq_true_eq]
  constructor
  · rintro ⟨p, ⟨hp, hwritten, hu⟩, rfl⟩
    exact ⟨p, hp, hu, hwritten, rfl⟩
  · rintro ⟨p, hp, hu, hwritten, rfl⟩
    exact ⟨p, ⟨hp, hwritten, hu⟩, rfl⟩

theorem map_fst_zip_sublist {α β : Type} (xs : List α) (ys : List β) :
    ((xs.zip ys).map (·.1)).Sublist xs := by
  induction xs generalizing ys with
  | nil => exact .slnil
  | cons x xs ih =>
    cases ys with
    | nil => exact List.nil_sublist _
    | cons y ys => exact (ih ys).cons_cons x

/-- What is known of a part of a request that submits the envelopes `es`: its
steps are explained, each envelope has at most one entry, and what it returns are
the ids that its entries say are written. -/
structure Submits (K : StorageKeys) (destination : JobDestination) (es : List JobEnvelope)
    (tr : List (Prog.Event Sent (World γ)))
    (q : Prog Sent (World γ) Choice (Except OxanaError (List JobId))) : Prop where
  /-- its steps are explained -/
  explained : ∀ x ∈ tr, Explained K destination es x
  /-- the envelopes come in order -/
  submitted : ((entries K tr).map (·.1)).Sublist es
  /-- what is written -/
  returned : ∀ new, q = .ret (.ok new) → ∀ id, id ∈ new ↔ WrittenIn (entries K tr) id

variable {q : Prog Sent (World γ) Choice (Except OxanaError (List JobId))}

/-- What is submitted of fewer envelopes is submitted of more. -/
theorem Submits.mono (h : Submits K destination pending tr q) (hes : pending.Sublist es) :
    Submits K destination es tr q :=
  ⟨fun x hx => (h.explained x hx).mono fun _ he => hes.subset he, h.submitted.trans hes, h.returned⟩

/-- Steps that only read submit nothing, and leave everything still to be submitted. -/
theorem Submits.reads (hread : ∀ x ∈ tr, x.post = x.pre) (hentries : entries K tr = [])
    (hq : ∀ new, q ≠ .ret (.ok new)) : Submits K destination es tr q := by
  refine ⟨fun x hx => .read (List.flatMap_eq_nil_iff.mp hentries x hx) (hread x hx), ?_,
    fun new hnew => absurd hnew (hq new)⟩
  rw [hentries]
  exact List.nil_sublist _

theorem Submits.nil (hq : ∀ new, q ≠ .ret (.ok new)) : Submits K destination es [] q :=
  .reads (fun _ hx => absurd hx List.not_mem_nil) rfl hq

/-- When nothing is left to submit, nothing is submitted. -/
theorem Submits.done (h : Prog.Trace (pure [] : Itemized γ (List JobId)) tr q) :
    Submits K destination es tr q := by
  cases h
  refine ⟨fun _ hx => absurd hx List.not_mem_nil, List.nil_sublist _, fun new hnew id => ?_⟩
  cases hnew
  exact ⟨fun hid => absurd hid List.not_mem_nil, fun ⟨_, hp, _⟩ => absurd hp List.not_mem_nil⟩

/-- What reads first, and then submits, submits. -/
theorem Submits.after_reads {reads : List (Prog.Event Sent (World γ))}
    (hread : ∀ x ∈ reads, x.post = x.pre) (hentries : entries K reads = [])
    (h : Submits K destination es tr q) : Submits K destination es (reads ++ tr) q := by
  have happend : entries K (reads ++ tr) = entries K tr := by
    rw [entries_append, hentries, List.nil_append]
  refine ⟨fun x hx => ?_, by rw [happend]; exact h.submitted, by rw [happend]; exact h.returned⟩
  rcases List.mem_append.mp hx with hx | hx
  · exact .read (List.flatMap_eq_nil_iff.mp hentries x hx) (hread x hx)
  · exact h.explained x hx

/-- Reading first, and then submitting what is left, submits. -/
theorem Submits.bind_reads {α : Type} {x : Call γ α} {f : α → Itemized γ (List JobId)}
    {Q : α → Prop} (h : Prog.Trace (Itemized.plain x >>= f : Itemized γ (List JobId)) tr q)
    (hx : Call.Always (fun _ _ => True) (fun _ w w' => w' = w) Q x)
    (hf : ∀ a tr', Q a → Prog.Trace (f a) tr' q → Submits K destination es tr' q) :
    Submits K destination es tr q := by
  have hidle {tr' : List (Prog.Event Request (World γ))} (hreads : ∀ y ∈ tr', y.post = y.pre) :
      ∀ y ∈ tr'.map (Prog.Event.relabel Sent.request), y.post = y.pre := by
    intro y hy
    obtain ⟨z, hz, rfl⟩ := List.mem_map.mp hy
    exact hreads z hz
  rcases Labelled.trace_bind h with ⟨p, hp, hq⟩ | ⟨a, tr₁, tr₂, rfl, h₁, h₂⟩
  · obtain ⟨tr', p', rfl, hp', -⟩ := Labelled.trace_plain hp
    exact .reads (hidle (hx.trace hp' fun _ _ => trivial).1) (entries_plain tr') hq
  · obtain ⟨tr', p', rfl, hp', hret⟩ := Labelled.trace_plain h₁
    obtain ⟨hreads, hQ⟩ := hx.trace hp' fun _ _ => trivial
    exact .after_reads (hidle hreads) (entries_plain tr') (hf a tr₂ (hQ a (hret a rfl)) h₂)

/-- **The script**: of all its calls for the pending envelopes only the last one has entries. -/
theorem submits_enqueueLoop {R : List JobId} (hcov : Covered (· ∈ R) pending) {m : Snapshots}
    (hm : m.Of R) {n : Nat}
    (h : Prog.Trace (Itemized.enqueueLoop K destination pending n m : Itemized γ _) tr q) :
    Submits K destination pending tr q := by
  induction n generalizing m tr with
  | zero =>
    cases h
    exact .nil fun _ => nofun
  | succ n ih =>
    rcases Labelled.trace_bind h with ⟨p, hp, hq⟩ | ⟨reply, tr₁, tr₂, rfl, h₁, h₂⟩
    · -- the reply has not come back
      rcases Itemized.trace_submit hp with ⟨rfl, -⟩ | ⟨w, rfl, -⟩
      · exact .nil hq
      · rcases submission_cases hm hcov rfl with ⟨hnone, hread, -⟩ | ⟨outcomes, -, hents, hdoes⟩
        · exact .reads (by simpa using hread) (by rw [entries_singleton, hnone]) hq
        · refine ⟨fun x hx => ?_, ?_, fun new hnew => absurd hnew (hq new)⟩
          · obtain rfl := List.mem_singleton.mp hx
            exact .entries (by rw [hents]; exact hdoes)
          · rw [entries_singleton, hents]
            exact map_fst_zip_sublist ..
    rcases Itemized.trace_submit h₁ with ⟨-, hno⟩ | ⟨w, rfl, hreply⟩
    · exact absurd rfl (hno reply)
    have hreply := hreply reply rfl
    rcases submission_cases hm hcov rfl with ⟨hnone, hread, hstale⟩ | ⟨outcomes, hok, hents, hdoes⟩
    · -- the call was stale
      rw [if_neg (hstale reply hreply)] at h₂
      refine .after_reads (by simpa using hread) (by rw [entries_singleton, hnone]) ?_
      rcases addSnapshots_cases (γ := γ) reply.changed m with ⟨m', hm'⟩ | hfail
      · rw [hm'] at h₂
        have hadd : Call.Returns (addSnapshots reply.changed m : Call γ _) [] m' := by
          rw [hm']
          exact .pure m'
        exact ih (hm.refresh hcov hreply hadd).2 h₂
      · rw [hfail] at h₂
        cases h₂
        exact .nil fun _ => nofun
    · -- it was the last one
      rw [hok] at hreply
      obtain rfl := Except.ok.inj hreply
      rw [if_pos rfl] at h₂
      cases h₂
      rw [List.append_nil]
      refine ⟨fun x hx => ?_, ?_, fun new hnew id => ?_⟩
      · obtain rfl := List.mem_singleton.mp hx
        exact .entries (by rw [hents]; exact hdoes)
      · rw [entries_singleton, hents]
        exact map_fst_zip_sublist ..
      · cases hnew
        rw [entries_singleton, hents]
        exact mem_writtenOf

/-- The unique envelopes of a chunk are submitted, less those that the producer has found stored. -/
theorem submits_enqueueUnique
    (h : Prog.Trace (Itemized.enqueueUnique K destination pending : Itemized γ _) tr q) :
    Submits K destination pending tr q := by
  rw [Itemized.enqueueUnique] at h
  split at h
  · exact .done h
  refine .bind_reads h (readSnapshots_always (G := fun _ w w' => w' = w) (fun _ _ _ => rfl)
    (nodup_replacementIds _ []).1) fun m tr hm h => ?_
  refine .bind_reads h (readExisting_always (G := fun _ w w' => w' = w) (fun _ _ _ => rfl) _)
    fun existing tr _ h => ?_
  rw [Itemized.enqueuePending] at h
  split at h
  · exact .done h
  cases h with
  | refl =>
    refine .nil fun new hnew => ?_
    cases hnew
  | ask h =>
    refine (submits_enqueueLoop ?_ hm h).mono List.filter_sublist
    exact (covered_replacementIds _ _ []).mono fun id h => h.resolve_right List.not_mem_nil

end Steps

/-! ## Chunks -/

/-- Envelopes that are left out leave the others in their order. -/
theorem pendingOf_sublist (written : List JobId) (es : List JobEnvelope) (seen : List JobId) :
    (pendingOf written es seen).Sublist es := by
  induction es generalizing seen with
  | nil => exact .slnil
  | cons e es ih =>
    rw [pendingOf]
    split
    · exact (ih seen).cons e
    · exact (ih (e.id :: seen)).cons_cons e

/-- What is left of a chunk holds no Skip envelope of an id that has been written before. -/
theorem pendingOf_fresh {written seen : List JobId} {es : List JobEnvelope} {e : JobEnvelope}
    (h : e ∈ pendingOf written es seen) (hskip : e.skips = true) :
    e.id ∉ written ∧ e.id ∉ seen := by
  induction es generalizing seen with
  | nil => exact absurd h List.not_mem_nil
  | cons e' es ih =>
    rw [pendingOf] at h
    split at h
    · exact ih h
    · next hkeep =>
      rcases List.mem_cons.mp h with rfl | h
      · exact not_or.mp fun hin => hkeep ⟨hskip, hin⟩
      · obtain ⟨hwritten, hseen⟩ := ih h
        exact ⟨hwritten, fun hin => hseen (List.mem_cons_of_mem _ hin)⟩

/-- What is left of a chunk holds no Skip envelope that comes after another envelope of its id. -/
theorem pendingOf_pairwise (written : List JobId) (es : List JobEnvelope) (seen : List JobId) :
    (pendingOf written es seen).Pairwise fun e e' => e'.skips = true → e'.id ≠ e.id := by
  induction es generalizing seen with
  | nil => exact .nil
  | cons e es ih =>
    rw [pendingOf]
    split
    · exact ih seen
    · refine .cons (fun e' he' hskip heq => ?_) (ih (e.id :: seen))
      exact (pendingOf_fresh he' hskip).2 (heq ▸ List.mem_cons_self ..)

section Chunks

variable {tr : List (Prog.Event Sent (World γ))} {es : List JobEnvelope} {written : List JobId}

/-- A later Skip envelope of an id that a unique envelope has been written
under is not even submitted. -/
def Apart (p p' : JobEnvelope × Outcome) : Prop :=
  p.1.jobMeta.unique = true → p.2 ≠ .skipped → p'.1.skips = true → p'.1.id ≠ p.1.id

/-- What is known of a part of a request for the envelopes `es`, where those in
`written` have been written before. -/
structure SkipsOnce (K : StorageKeys) (destination : JobDestination) (es : List JobEnvelope)
    (written : List JobId) (tr : List (Prog.Event Sent (World γ))) : Prop where
  /-- its steps are explained -/
  explained : ∀ x ∈ tr, Explained K destination es x
  /-- the envelopes come in order -/
  submitted : ((entries K tr).map (·.1)).Sublist es
  /-- Skip envelopes come before other writes -/
  apart : (entries K tr).Pairwise Apart
  /-- no Skip envelope among the entries has the id of one that had been written before -/
  fresh : ∀ p ∈ entries K tr, p.1.skips = true → p.1.id ∉ written

theorem SkipsOnce.no_entries (hexplained : ∀ x ∈ tr, Explained K destination es x)
    (hentries : entries K tr = []) : SkipsOnce K destination es written tr := by
  refine ⟨hexplained, ?_, ?_, ?_⟩ <;> rw [hentries]
  · exact List.nil_sublist _
  · exact .nil
  · exact fun p hp => absurd hp List.not_mem_nil

/-- **A chunk.** What it adds to the ids written is what its entries say. -/
theorem chunk_skipsOnce {q : Prog Sent (World γ) Choice (Except OxanaError (List JobId))}
    (h : Prog.Trace (Itemized.enqueueChunk K es destination written : Itemized γ _) tr q) :
    SkipsOnce K destination es written tr ∧ ∀ written', q = .ret (.ok written') → ∀ id,
      id ∈ written' ↔ WrittenIn (entries K tr) id ∨ id ∈ written := by
  rw [Itemized.enqueueChunk] at h
  split at h
  · -- ordinary jobs: a pipeline
    next hall =>
    have hpipe {tr' : List (Prog.Event Sent (World γ))}
        {p : Prog Sent (World γ) Choice (Except OxanaError (List Unit))}
        (hp : Prog.Trace (Itemized.plain (pipe .hset
          (es.flatMap (ordinaryWrites K destination))) : Itemized γ (List Unit)) tr' p) :
        (∀ x ∈ tr', Explained K destination es x) ∧ entries K tr' = [] := by
      obtain ⟨tr', p', rfl, hp', -⟩ := Labelled.trace_plain hp
      have hcommands := (Call.Always.pipe (l := .hset) (E := fun _ _ => True)
        (G := fun _ (w w' : World γ) =>
          ∃ c ∈ es.flatMap (ordinaryWrites K destination), w' = w.after c)
        (Q := fun _ _ => True) (fun c hc _ _ => ⟨c, hc, rfl⟩) fun _ _ _ _ _ _ => trivial).trace hp'
          fun _ _ => trivial
      refine ⟨fun x hx => ?_, entries_plain tr'⟩
      obtain ⟨y, hy, rfl⟩ := List.mem_map.mp hx
      obtain ⟨c, hc, hpost⟩ := hcommands.1 y hy
      obtain ⟨e, he, hc⟩ := List.mem_flatMap.mp hc
      exact .ordinary he (by simpa using List.all_eq_true.mp hall e he) hc hpost
    rcases Labelled.trace_bind h with ⟨p, hp, hq⟩ | ⟨a, tr₁, tr₂, rfl, h₁, h₂⟩
    · exact ⟨.no_entries (hpipe hp).1 (hpipe hp).2, fun written' hw => absurd hw (hq written')⟩
    · cases h₂
      rw [List.append_nil]
      refine ⟨.no_entries (hpipe h₁).1 (hpipe h₁).2, fun written' hw id => ?_⟩
      cases hw
      rw [(hpipe h₁).2]
      constructor
      · exact .inr
      · rintro (⟨_, hp, _⟩ | h)
        · exact absurd hp List.not_mem_nil
        · exact h
  · -- unique jobs: the script
    have hunique {tr' : List (Prog.Event Sent (World γ))}
        {p : Prog Sent (World γ) Choice (Except OxanaError (List JobId))}
        (hp : Prog.Trace (Itemized.enqueueUnique K destination (pendingOf written es []) :
          Itemized γ (List JobId)) tr' p) : SkipsOnce K destination es written tr' := by
      have hsub := submits_enqueueUnique hp
      have hmem {p : JobEnvelope × Outcome} (hp : p ∈ entries K tr') :
          p.1 ∈ pendingOf written es [] :=
        hsub.submitted.subset (List.mem_map_of_mem hp)
      have hpairs := List.pairwise_map.mp ((pendingOf_pairwise written es []).sublist hsub.submitted)
      exact ⟨(hsub.mono (pendingOf_sublist ..)).explained,
        hsub.submitted.trans (pendingOf_sublist ..), hpairs.imp fun h _ _ => h,
        fun p hp hskip => (pendingOf_fresh (hmem hp) hskip).1⟩
    rcases Labelled.trace_bind h with ⟨p, hp, hq⟩ | ⟨new, tr₁, tr₂, rfl, h₁, h₂⟩
    · exact ⟨hunique hp, fun written' hw => absurd hw (hq written')⟩
    · cases h₂
      rw [List.append_nil]
      refine ⟨hunique h₁, fun written' hw id => ?_⟩
      cases hw
      rw [List.mem_append, (submits_enqueueUnique h₁).returned new rfl id]

/-- **All chunks**: what one of them has written, the next ones know. -/
theorem chunks_skipsOnce {cs : List (List JobEnvelope)}
    {q : Prog Sent (World γ) Choice (Except OxanaError Unit)}
    (h : Prog.Trace (Itemized.enqueueChunks K destination cs written : Itemized γ Unit) tr q) :
    SkipsOnce K destination cs.flatten written tr := by
  induction cs generalizing written tr with
  | nil =>
    cases h
    exact .no_entries (fun _ hx => absurd hx List.not_mem_nil) rfl
  | cons c cs ih =>
    have hleft : ∀ e ∈ c, e ∈ (c :: cs).flatten := fun e he =>
      List.mem_flatten.mpr ⟨c, List.mem_cons_self .., he⟩
    rcases Labelled.trace_bind h with ⟨p, hp, -⟩ | ⟨written', tr₁, tr₂, rfl, h₁, h₂⟩
    · obtain ⟨hc, -⟩ := chunk_skipsOnce hp
      exact ⟨fun x hx => (hc.explained x hx).mono hleft,
        hc.submitted.trans (List.sublist_append_left ..), hc.apart, hc.fresh⟩
    · obtain ⟨hc, hwritten⟩ := chunk_skipsOnce h₁
      have hwritten := hwritten written' rfl
      have hcs := ih h₂
      refine ⟨fun x hx => ?_, ?_, ?_, fun p hp hskip => ?_⟩
      · rcases List.mem_append.mp hx with hx | hx
        · exact (hc.explained x hx).mono hleft
        · exact (hcs.explained x hx).mono fun e he => List.mem_append_right c he
      · rw [entries_append, List.map_append]
        exact hc.submitted.append hcs.submitted
      · rw [entries_append]
        refine List.pairwise_append.mpr ⟨hc.apart, hcs.apart, fun p hp p' hp' hu ho hskip heq => ?_⟩
        -- the id is among those written when the later chunk begins
        exact hcs.fresh p' hp' hskip ((hwritten _).mpr (.inl ⟨p, hp, hu, ho, heq.symm⟩))
      · rw [entries_append] at hp
        rcases List.mem_append.mp hp with hp | hp
        · exact hc.fresh p hp hskip
        · exact fun hin => hcs.fresh p hp hskip ((hwritten _).mpr (.inr hin))

end Chunks

/-! ## Requests -/

section Requests

variable {tr : List (Prog.Event Sent (World γ))} {es : List JobEnvelope} {e : JobEnvelope}

/-- What holds of the steps of a request to enqueue a list: what each step did with which envelopes,
and that Skip envelopes write an id at most once. -/
structure WritesOnce (K : StorageKeys) (es : List JobEnvelope)
    (tr : List (Prog.Event Sent (World γ))) : Prop where
  /-- every step is explained by its entries, or is a write of an ordinary job -/
  explained : ∀ x ∈ tr, Explained K .queue es x
  /-- every envelope has at most one entry -/
  submitted : ((entries K tr).map (·.1)).Sublist es
  /-- after a unique envelope was written, no Skip envelope of its id is -/
  skips : (entries K tr).Pairwise fun p p' => p.1.jobMeta.unique = true → p.2 ≠ .skipped →
    p'.1.skips = true → p'.1.id = p.1.id → p'.2 = .skipped
  /-- Skip envelopes write an id at most once -/
  once : ∀ id, ((entries K tr).countP fun p =>
    decide (p.1.skips = true ∧ p.1.id = id ∧ p.2 ≠ .skipped)) ≤ 1

theorem countP_le_one {α : Type} {p : α → Bool} {l : List α}
    (h : l.Pairwise fun a b => p a = true → ¬ p b = true) : l.countP p ≤ 1 := by
  induction l with
  | nil => exact Nat.zero_le _
  | cons a l ih =>
    obtain ⟨ha, hl⟩ := List.pairwise_cons.mp h
    by_cases hpa : p a = true
    · have hnone : l.countP p = 0 := List.countP_eq_zero.mpr fun b hb => ha b hb hpa
      rw [List.countP_cons_of_pos hpa, hnone]
    · rw [List.countP_cons_of_neg hpa]
      exact ih hl

theorem SkipsOnce.writesOnce (h : SkipsOnce K .queue es [] tr) : WritesOnce K es tr := by
  refine ⟨h.explained, h.submitted, h.apart.imp fun hapart hu ho hskip heq =>
    absurd heq (hapart hu ho hskip), fun id => countP_le_one (h.apart.imp fun hapart hp hp' => ?_)⟩
  obtain ⟨hskip, hid, ho⟩ := of_decide_eq_true hp
  obtain ⟨hskip', hid', -⟩ := of_decide_eq_true hp'
  exact hapart (Bool.and_eq_true_iff.mp hskip).1 ho hskip' (hid'.trans hid.symm)

theorem enqueueList_skipsOnce {q : Prog Sent (World γ) Choice (Except OxanaError (List JobId))}
    (h : Prog.Trace (Itemized.enqueueList K es : Itemized γ (List JobId)) tr q) :
    SkipsOnce K .queue es [] tr := by
  have hnil : SkipsOnce K .queue es [] ([] : List (Prog.Event Sent (World γ))) :=
    .no_entries (fun _ hx => absurd hx List.not_mem_nil) rfl
  rw [Itemized.enqueueList] at h
  split at h
  · cases h
    exact hnil
  rcases Labelled.trace_connection h with ⟨rfl, -⟩ | h
  · exact hnil
  have hchunks {tr' : List (Prog.Event Sent (World γ))}
      {p : Prog Sent (World γ) Choice (Except OxanaError Unit)}
      (hp : Prog.Trace (Itemized.enqueueChunks K .queue (enqueueListChunks es) [] :
        Itemized γ Unit) tr' p) : SkipsOnce K .queue es [] tr' := by
    have hall := chunks_skipsOnce hp
    rwa [enqueueListChunks, flatten_toChunks] at hall
  rcases Labelled.trace_bind h with ⟨p, hp, -⟩ | ⟨_, tr₁, tr₂, rfl, h₁, h₂⟩
  · exact hchunks hp
  · cases h₂
    rw [List.append_nil]
    exact hchunks h₁

/-- The request for one envelope has written it: the commands of the pipeline
were executed, if the job is ordinary; a call of the script did, if it is
unique. -/
def Wrote (K : StorageKeys) (e : JobEnvelope) (tr : List (Prog.Event Sent (World γ))) : Prop :=
  if e.jobMeta.unique = true then ∃ p ∈ entries K tr, p.1 = e ∧ p.2 ≠ .skipped
  else ∀ c ∈ ordinaryWrites K .queue e, ∃ x ∈ tr, x.label = .request .hset ∧
    x.post = x.pre.after c ∧ (c x.pre.store).1 = .ok ()

/-- What holds of the steps of `try_enqueue` when it returns `r`: the answer says whether the
envelope was written. -/
structure Reports (K : StorageKeys) (e : JobEnvelope) (tr : List (Prog.Event Sent (World γ)))
    (r : Option JobId) : Prop where
  /-- every step is explained by its entries, or is a write of an ordinary job -/
  explained : ∀ x ∈ tr, Explained K .queue [e] x
  /-- it returns the id if it has written the envelope -/
  some_iff : r = some e.id ↔ Wrote K e tr
  /-- it returns nothing if it has not written the envelope -/
  none_iff : r = none ↔ ¬ Wrote K e tr
  /-- then it has not written at all -/
  idle : r = none → ∀ x ∈ tr, x.post.store = x.pre.store

/-- A unique job is written exactly if its id is returned by the chunk. -/
theorem wrote_iff_unique (hu : e.jobMeta.unique = true)
    (hsub : ((entries K tr).map (·.1)).Sublist [e]) :
    Wrote K e tr ↔ WrittenIn (entries K tr) e.id := by
  have hmem {p : JobEnvelope × Outcome} (hp : p ∈ entries K tr) : p.1 = e :=
    List.mem_singleton.mp (hsub.subset (List.mem_map_of_mem hp))
  rw [Wrote, if_pos hu]
  constructor
  · rintro ⟨p, hp, rfl, ho⟩
    exact ⟨p, hp, hu, ho, rfl⟩
  · rintro ⟨p, hp, -, ho, -⟩
    exact ⟨p, hp, hmem hp, ho⟩

/-- An ordinary job is written by the pipeline of its chunk, and by nothing else. -/
theorem wrote_ordinary (hu : ¬ e.jobMeta.unique = true) {written : List JobId}
    (h : Prog.Trace (Itemized.enqueueChunk K [e] .queue [] : Itemized γ (List JobId)) tr
      (.ret (.ok written))) : Wrote K e tr := by
  rw [Itemized.enqueueChunk, if_pos (by simpa using hu)] at h
  rcases Labelled.trace_bind h with ⟨p, -, hq⟩ | ⟨as, tr₁, tr₂, rfl, h₁, h₂⟩
  · exact absurd rfl (hq written)
  obtain ⟨tr', p', rfl, hp', hret⟩ := Labelled.trace_plain h₁
  rw [hret as rfl, List.flatMap_singleton] at hp'
  have hcommands := Call.Returns.pipe_inv hp'
  rw [Wrote, if_neg hu]
  intro c hc
  obtain ⟨i, hi, rfl⟩ := List.mem_iff_getElem.mp hc
  obtain ⟨x, hx, hl, hpost, hok⟩ := hcommands.get hi (hcommands.length_eq ▸ hi)
  exact ⟨_, List.mem_append_left _ (List.mem_map_of_mem hx), congrArg Sent.request hl, hpost, hok⟩

theorem tryEnqueue_reports {r : Option JobId}
    (h : Prog.Trace (Itemized.tryEnqueue K e : Itemized γ (Option JobId)) tr (.ret (.ok r))) :
    Reports K e tr r := by
  rcases Labelled.trace_connection h with ⟨-, hno⟩ | h
  · exact absurd rfl (hno r)
  rcases Labelled.trace_bind h with ⟨p, -, hq⟩ | ⟨written, tr₁, tr₂, rfl, h₁, h₂⟩
  · exact absurd rfl (hq r)
  cases h₂
  rw [List.append_nil]
  obtain ⟨hchunk, hwritten⟩ := chunk_skipsOnce h₁
  have hwrote : (!e.jobMeta.unique || decide (e.id ∈ written)) = true ↔ Wrote K e tr₁ := by
    by_cases hu : e.jobMeta.unique = true
    · rw [wrote_iff_unique hu hchunk.submitted, hu]
      simp [hwritten written rfl e.id]
    · exact ⟨fun _ => wrote_ordinary hu h₁, fun _ => by simp [hu]⟩
  have hnone : (if (!e.jobMeta.unique || decide (e.id ∈ written)) = true then some e.id else none)
      = none ↔ ¬ Wrote K e tr₁ := by
    rw [← hwrote]
    simp
  refine ⟨hchunk.explained, ?_, hnone, fun hr x hx => ?_⟩
  · rw [← hwrote]
    split
    · next hcond => exact iff_of_true rfl hcond
    · next hcond => exact iff_of_false nofun hcond
  · -- no step has anything to do
    have hno := hnone.mp hr
    cases hchunk.explained x hx with
    | ordinary he hu _ _ =>
      obtain rfl := List.mem_singleton.mp he
      exact absurd (wrote_ordinary (by simp [hu]) h₁) hno
    | entries hdoes =>
      refine (CarriesOut.nothing fun p hp => ?_).mp hdoes
      by_contra ho
      have hp' : p ∈ entries K tr₁ := List.mem_flatMap.mpr ⟨x, hx, hp⟩
      have he : p.1 = e :=
        List.mem_singleton.mp (hchunk.submitted.subset (List.mem_map_of_mem hp'))
      by_cases hu : e.jobMeta.unique = true
      · refine hno ?_
        rw [Wrote, if_pos hu]
        exact ⟨p, hp', he, ho⟩
      · exact hno (wrote_ordinary hu h₁)

/-- **One request writes an id through Skip envelopes at most once**, and not
after a unique envelope of that id; and `try_enqueue` reports its own write.
Whatever happens to the job in between. -/
theorem enqueue_writes_once (K : StorageKeys) :
    (∀ es, (Itemized.enqueueList K es : Itemized γ _).erase = enqueueList K es ∧
      ∀ tr q, Prog.Trace (Itemized.enqueueList K es : Itemized γ _) tr q → WritesOnce K es tr) ∧
    ∀ e, (Itemized.tryEnqueue K e : Itemized γ _).erase = tryEnqueue K e ∧
      ∀ tr r, Prog.Trace (Itemized.tryEnqueue K e : Itemized γ _) tr (.ret (.ok r)) →
        Reports K e tr r :=
  ⟨fun es => ⟨Itemized.enqueueList_erase K es, fun _ _ h => (enqueueList_skipsOnce h).writesOnce⟩,
    fun e => ⟨Itemized.tryEnqueue_erase K e, fun _ _ h => tryEnqueue_reports h⟩⟩

/-- The job `b` is enqueued twice by one request. When the producer looks, `b` is not stored. -/
def looksForB : Prog.Event Request (World Unit) :=
  ⟨.hexists, bare, bare.after (hexists (StorageKeys.new "").jobs "b")⟩

/-- As `b` was not stored, the script is called with its envelope. -/
def submitsB : Prog.Event Sent (World Unit) :=
  ⟨.submission .queue [] [welcome "b"], bare,
    bare.after (enqueueCall (.new "") .queue [] [welcome "b"])⟩

/-- However often the sample job is in the chunk, it is submitted once. -/
theorem enqueueChunk_submitsB (es : List JobEnvelope) (hu : ¬ (es.all fun e => !e.jobMeta.unique))
    (hes : pendingOf [] es [] = [welcome "b"]) :
    Prog.Trace (Itemized.enqueueChunk (.new "") es .queue [] : Itemized Unit (List JobId))
      [looksForB.relabel Sent.request, submitsB] (.ret (.ok ["b"])) := by
  have hexisting : Call.Returns (readExisting (.new "") ["b"]) [looksForB] [] := by
    have hpipe : Call.Returns (pipe .hexists (["b"].map (hexists (StorageKeys.new "").jobs)))
        [looksForB] [false] := .pipe_cons _ rfl .pipe_nil
    exact hpipe.bind (.pure _)
  have hcall : Prog.Trace (Itemized.enqueuePending (.new "") .queue [] [welcome "b"] :
      Itemized Unit (List JobId)) [submitsB] (.ret (.ok ["b"])) := by
    have hsend := Call.Returns.send (l := .enqueue ["b"])
      (x := enqueueCall (.new "") .queue [] [welcome "b"]) bare (a := ⟨[], [.enqueued]⟩) rfl
    have hsubmit := Prog.Trace.relabel (fun _ => Sent.submission .queue [] [welcome "b"]) hsend
    exact .ask (i := Call.fine) (Prog.Trace.bind hsubmit (.refl _))
  have hunique : Prog.Trace (Itemized.enqueueUnique (.new "") .queue [welcome "b"] :
      Itemized Unit (List JobId)) [looksForB.relabel Sent.request, submitsB] (.ret (.ok ["b"])) :=
    Prog.Trace.bind (Prog.Trace.relabel Sent.request hexisting) hcall
  rw [Itemized.enqueueChunk, if_neg hu, hes]
  exact Prog.Trace.bind hunique (.refl _)

/-- The job is twice in one request, and both ids are returned, but it is written once. -/
theorem enqueue_writes_b_once :
    (∃ tr, Prog.Trace (Itemized.enqueueList (.new "") [welcome "b", welcome "b"] :
      Itemized Unit (List JobId)) tr (.ret (.ok ["b", "b"])) ∧
        entries (.new "") tr = [(welcome "b", .enqueued)] ∧
        WritesOnce (.new "") [welcome "b", welcome "b"] tr) ∧
    ∃ tr, Prog.Trace (Itemized.tryEnqueue (.new "") (welcome "b") :
      Itemized Unit (Option JobId)) tr (.ret (.ok (some "b"))) ∧
        Reports (.new "") (welcome "b") tr (some "b") := by
  have hone : enqueueListChunks [welcome "b", welcome "b"] = [[welcome "b", welcome "b"]] := rfl
  have hchunk := enqueueChunk_submitsB [welcome "b", welcome "b"] (by decide) rfl
  have hchunks : Prog.Trace (Itemized.enqueueChunks (.new "") .queue
      (enqueueListChunks [welcome "b", welcome "b"]) [] : Itemized Unit Unit)
        [looksForB.relabel Sent.request, submitsB] (.ret (.ok ())) := by
    rw [hone]
    exact Prog.Trace.bind hchunk (.refl _)
  have hlist : Prog.Trace (Itemized.enqueueList (.new "") [welcome "b", welcome "b"] :
      Itemized Unit (List JobId)) [looksForB.relabel Sent.request, submitsB]
        (.ret (.ok ["b", "b"])) :=
    .ask (i := Call.fine) (Prog.Trace.bind hchunks (.refl _))
  have htry : Prog.Trace (Itemized.tryEnqueue (.new "") (welcome "b") :
      Itemized Unit (Option JobId)) [looksForB.relabel Sent.request, submitsB]
        (.ret (.ok (some "b"))) :=
    .ask (i := Call.fine) (Prog.Trace.bind
      (enqueueChunk_submitsB [welcome "b"] (by decide) rfl) (.refl _))
  exact ⟨⟨_, hlist, rfl, ((enqueue_writes_once (.new "")).1 _).2 _ _ hlist⟩,
    ⟨_, htry, ((enqueue_writes_once (.new "")).2 _).2 _ _ htry⟩⟩

end Requests

end Oxana
