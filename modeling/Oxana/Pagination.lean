import Oxana.Listing
import Oxana.Lookahead

/-!
# Pages of the dashboard

The dashboard shows the lists in pages of 50 jobs. It asks for one more job, and says that there is
a next page if it gets that one. But entries without a job have been dropped by then: a page on which
one is missing looks like the last (`pages_cover_iff`).
-/

namespace Oxana

open Redis Interleave Call Lookahead

variable {γ : Type}

/-! ## The pages -/

/-- `JOBS_PER_PAGE`: fifty jobs. -/
def jobsPerPage : UInt64 := 50

/-- A page of jobs, as the dashboard shows it. -/
structure JobPage where
  /-- the jobs on the page -/
  jobs : List JobEnvelope
  /-- its number, from 1 -/
  number : UInt64
  /-- the number of entries of the whole list -/
  total : UInt64
  /-- a link to the next page is shown -/
  hasNext : Bool

namespace JobPage

/-- `total.div_ceil(JOBS_PER_PAGE)`: the number of pages that there are. -/
def pages (total : UInt64) : UInt64 :=
  if total % jobsPerPage = 0 then total / jobsPerPage else total / jobsPerPage + 1

/-- `clamp_number`: the number of a page, limited to the pages that there are. -/
def clampNumber (page total : UInt64) : UInt64 :=
  let last := max (pages total) 1
  if page < 1 then 1 else if last < page then last else page

/-- `list_opts`: what is asked for on a page, which is one job more than it shows. -/
def listOpts (page : UInt64) : QueueListOpts :=
  ⟨jobsPerPage + 1, (max page 1 - 1) * jobsPerPage⟩

/-- `new`: a page of the jobs that have been read for it. -/
def new (page total : UInt64) (jobs : List JobEnvelope) : JobPage :=
  ⟨jobs.take jobsPerPage.toNat, max page 1, total, jobsPerPage.toNat < jobs.length⟩

/-- `range_start`: the number of the first job of the page. -/
def rangeStart (page : JobPage) : UInt64 := (page.number - 1) * jobsPerPage + 1

/-- `range_end`: the number of the last job of the page. -/
def rangeEnd (page : JobPage) : UInt64 :=
  min ((page.number - 1) * jobsPerPage + UInt64.ofNat page.jobs.length) page.total

end JobPage

section Handlers

variable (K : StorageKeys)

/-- `global_jobs`: a page of a list that is not one of a queue. -/
def globalJobs (l : JobList) (page : UInt64) : Call γ JobPage := do
  let total ← l.count K
  let jobs ← l.list K (JobPage.listOpts page)
  pure (JobPage.new page total jobs)

/-- `queue_detail`, where the number of the page is brought into range. -/
def queueDetail (queue : String) (page : UInt64) : Call γ JobPage := do
  let liveEnqueued ← enqueuedCount K queue
  let pageNumber := JobPage.clampNumber page liveEnqueued
  let jobs ← listQueueJobs K queue (JobPage.listOpts pageNumber)
  pure (JobPage.new pageNumber liveEnqueued jobs)

namespace JobList

/-- The page of a list that is shown under a number. -/
def shown : JobList → UInt64 → Call γ JobPage
  | queue name => queueDetail K name
  | l => globalJobs K l

/-- The number that a page of a list gets. -/
def pageNumber (total page : UInt64) : JobList → UInt64
  | queue _ => JobPage.clampNumber page total
  | _ => page

end JobList

end Handlers

/-- The jobs that somebody sees who follows the links to the next page, from one page on, while
nothing else happens. -/
inductive Visits (shown : UInt64 → Call γ JobPage) (w : World γ) :
    UInt64 → List JobEnvelope → Prop
  /-- no link is shown -/
  | last {number : UInt64} {page : JobPage} : Solo Reliable (shown number) w (.ok page) w →
      page.hasNext = false → Visits shown w number page.jobs
  /-- the link is followed -/
  | next {number : UInt64} {page : JobPage} {rest : List JobEnvelope} :
      Solo Reliable (shown number) w (.ok page) w → page.hasNext = true →
      Visits shown w (page.number + 1) rest → Visits shown w number (page.jobs ++ rest)

/-! ## What a page shows -/

namespace JobPage

/-- The number of entries before a page, as a natural number. -/
def skipped (page : UInt64) : ℕ := (max page.toNat 1 - 1) * 50

theorem toNat_max_one (page : UInt64) : (max page 1).toNat = max page.toNat 1 := by
  rw [UInt64.max_def]
  split
  · next h =>
    rw [UInt64.le_iff_toNat_le] at h
    exact (Nat.max_eq_right h).symm
  · next h =>
    rw [UInt64.le_iff_toNat_le] at h
    exact (Nat.max_eq_left (Nat.le_of_not_le h)).symm

theorem toNat_before (page : UInt64) : (max page 1 - 1).toNat = max page.toNat 1 - 1 := by
  have hone : (1 : UInt64) ≤ max page 1 := by
    rw [UInt64.le_iff_toNat_le, toNat_max_one]
    exact Nat.le_max_right ..
  rw [UInt64.toNat_sub_of_le _ _ hone, toNat_max_one]
  rfl

/-- The offset that is asked for is the number of jobs on the pages before, if it does not wrap. -/
theorem toNat_offset (page : UInt64) : (listOpts page).offset.toNat = skipped page % 2 ^ 64 := by
  rw [listOpts, UInt64.toNat_mul, toNat_before]
  rfl

theorem toNat_count (page : UInt64) : (listOpts page).count.toNat = 51 := rfl

/-- A page that begins within the list is asked for as it should be: fifty jobs behind those of the
pages before, and one more. -/
theorem between_listOpts {α : Type} {page : UInt64} {xs : List α}
    (h : skipped page + 51 ≤ 2 ^ 63) :
    between (listOpts page).start (listOpts page).stop xs =
      (xs.drop (skipped page)).take 51 := by
  have hoffset : (listOpts page).offset.toNat = skipped page := by
    rw [toNat_offset, Nat.mod_eq_of_lt (by omega)]
  have hexact : (listOpts page).Exact := by
    rw [exact_iff, hoffset, toNat_count]
    omega
  rw [hexact.between_eq, if_neg (by rw [toNat_count]; omega), QueueListOpts.slice, hoffset,
    toNat_count]

end JobPage

section Shown

variable {K : StorageKeys} {w w' : World γ} {l : JobList}

/-- The number that a page of a list gets, by what is stored. -/
abbrev JobList.numberOf (l : JobList) (K : StorageKeys) (s : Store) (page : UInt64) : UInt64 :=
  l.pageNumber (UInt64.ofNat (l.entries K s).length) page

/-- What is asked for on a page, as the server reads it. -/
def JobList.window (l : JobList) (K : StorageKeys) (s : Store) (page : UInt64) : List String :=
  between (JobPage.listOpts page).start (JobPage.listOpts page).stop (l.entries K s)

/-- **A page**: it shows the jobs of what is asked for, if all of that can be read, and is an error
otherwise. -/
theorem solo_shown (htyped : l.Typed K w.store) {page : UInt64} {r : Except OxanaError JobPage} :
    Solo Reliable (l.shown K page) w r w' ↔ w' = w ∧ r =
      if (l.window K w.store (l.numberOf K w.store page)).all (l.legible K w.store)
      then .ok (JobPage.new (l.numberOf K w.store page) (UInt64.ofNat (l.entries K w.store).length)
        ((l.window K w.store (l.numberOf K w.store page)).filterMap (l.job K w.store)))
      else .error .json := by
  have hshown : (l.shown K page : Call γ JobPage) = l.count K >>= fun total =>
      l.list K (JobPage.listOpts (l.pageNumber total page)) >>= fun jobs =>
        pure (JobPage.new (l.pageNumber total page) total jobs) := by
    cases l <;> rfl
  rw [hshown, solo_count_bind htyped, solo_bind]
  by_cases hall : (l.window K w.store (l.numberOf K w.store page)).all (l.legible K w.store) = true
  · rw [if_pos hall]
    rw [JobList.window] at hall
    simp [solo_list htyped, solo_pure, hall, JobList.window, and_comm]
  · rw [if_neg hall]
    rw [JobList.window] at hall
    simp [solo_list htyped, solo_pure, hall]

end Shown

/-! ## When a page is right -/

namespace JobPage

/-- **A page as it should be**, for a list of `n` entries: the link to the next page and the range
that is shown agree with the list. -/
structure Covers (n : ℕ) (page : JobPage) : Prop where
  /-- a link to the next page is shown if there are entries behind this one -/
  hasNext : page.hasNext = true ↔ page.number.toNat * 50 < n
  /-- the start of the range does not overflow -/
  startFits : (page.number.toNat - 1) * 50 + 1 < 2 ^ 64
  /-- the end of the range does not overflow either -/
  endFits : (page.number.toNat - 1) * 50 + page.jobs.length < 2 ^ 64
  /-- they lie within the list if anything is shown -/
  within : page.jobs ≠ [] → 1 ≤ page.rangeStart.toNat ∧
    page.rangeStart.toNat ≤ page.rangeEnd.toNat ∧ page.rangeEnd.toNat ≤ n

section New

variable {number total : UInt64} {jobs : List JobEnvelope}

theorem number_new : (new number total jobs).number.toNat = max number.toNat 1 :=
  toNat_max_one number

theorem skipped_new : ((new number total jobs).number.toNat - 1) * 50 = skipped number := by
  rw [number_new, skipped]

theorem skipped_add : (new number total jobs).number.toNat * 50 = skipped number + 50 := by
  rw [number_new, skipped]
  omega

/-- A page says that another follows if more than fifty jobs have been read for it. -/
theorem hasNext_new : (new number total jobs).hasNext = true ↔ 50 < jobs.length :=
  decide_eq_true_iff

theorem jobs_new : (new number total jobs).jobs = jobs.take 50 := rfl

/-- The number of the first job of a page is one more than those on the pages before, unless this
wraps. -/
theorem rangeStart_new (h : skipped number + 1 < 2 ^ 64) :
    (new number total jobs).rangeStart.toNat = skipped number + 1 := by
  have hmul : ((max number 1 - 1) * jobsPerPage).toNat = skipped number := by
    have := toNat_offset number
    rwa [Nat.mod_eq_of_lt (by omega)] at this
  rw [rangeStart, new, UInt64.toNat_add, hmul, UInt64.toNat_one, Nat.mod_eq_of_lt h]

/-- The number of the last job of a page does not exceed the total that was counted. -/
theorem rangeEnd_new (h : skipped number + (jobs.take 50).length < 2 ^ 64) :
    (new number total jobs).rangeEnd.toNat =
      min (skipped number + (jobs.take 50).length) total.toNat := by
  have hmul : ((max number 1 - 1) * jobsPerPage).toNat = skipped number := by
    have := toNat_offset number
    rwa [Nat.mod_eq_of_lt (by omega)] at this
  have hsum : ((max number 1 - 1) * jobsPerPage +
      UInt64.ofNat (jobs.take 50).length).toNat = skipped number + (jobs.take 50).length := by
    rw [UInt64.toNat_add, hmul, UInt64.toNat_ofNat', Nat.add_mod_mod, Nat.mod_eq_of_lt h]
  rw [rangeEnd, new, UInt64.min_def]
  change (if (max number 1 - 1) * jobsPerPage + UInt64.ofNat (jobs.take 50).length ≤ total then _
    else _ : UInt64).toNat = _
  split
  · next hle =>
    rw [UInt64.le_iff_toNat_le, hsum] at hle
    exact hsum.trans (Nat.min_eq_left hle).symm
  · next hle =>
    rw [UInt64.le_iff_toNat_le, hsum] at hle
    exact (Nat.min_eq_right (Nat.le_of_not_le hle)).symm

variable {n : ℕ}

/-- A page that begins within the list covers its part of it: the numbers it shows are those of its
jobs. -/
theorem covers_new_of_lt (htotal : total.toNat = n) (hlt : n < 2 ^ 63) (hin : skipped number < n)
    (hjobs : skipped number + jobs.length ≤ n) :
    (new number total jobs).Covers n ↔ (50 < jobs.length ↔ skipped number + 50 < n) := by
  have htake : (jobs.take 50).length ≤ jobs.length := List.length_take_le' ..
  constructor
  · intro h
    have hnext := h.hasNext
    rw [hasNext_new, skipped_add] at hnext
    exact hnext
  · intro h
    refine ⟨?_, ?_, ?_, fun hsome => ?_⟩
    · rw [hasNext_new, skipped_add]
      exact h
    · rw [skipped_new]
      omega
    · rw [skipped_new, jobs_new]
      omega
    · rw [jobs_new, ← List.length_pos_iff] at hsome
      rw [rangeStart_new (by omega), rangeEnd_new (by omega), htotal]
      omega

/-- A page that begins behind the list covers nothing, so it has to show nothing, and its start must
not wrap. -/
theorem covers_new_of_le (hout : n ≤ skipped number) :
    (new number total jobs).Covers n ↔ skipped number + 1 < 2 ^ 64 ∧ jobs = [] := by
  constructor
  · intro h
    have hstart := h.startFits
    rw [skipped_new] at hstart
    refine ⟨hstart, ?_⟩
    by_contra hne
    have hshown : (new number total jobs).jobs ≠ [] := by
      rw [jobs_new]
      simp [hne]
    have hwithin := h.within hshown
    rw [rangeStart_new hstart] at hwithin
    omega
  · rintro ⟨hstart, rfl⟩
    refine ⟨?_, ?_, ?_, fun hsome => absurd rfl hsome⟩
    · rw [hasNext_new, skipped_add]
      simp
      omega
    · rw [skipped_new]
      exact hstart
    · rw [skipped_new, jobs_new]
      simp
      omega

end New

end JobPage

section Covers

variable {K : StorageKeys} {w w' : World γ} {l : JobList}

/-- What is asked for on a page that begins within the list: fifty-one entries, or as many as there
are. -/
theorem JobList.window_eq {s : Store} {number : UInt64}
    (h : JobPage.skipped number + 51 ≤ 2 ^ 63) :
    l.window K s number = ((l.entries K s).drop (JobPage.skipped number)).take 51 :=
  JobPage.between_listOpts h

/-- A page that is shown is made of the count of the entries and of what could be read of those
asked for. -/
theorem shown_ok (htyped : l.Typed K w.store) {number : UInt64} {page : JobPage}
    (h : Solo Reliable (l.shown K number) w (.ok page) w') :
    w' = w ∧ page = .new (l.numberOf K w.store number) (UInt64.ofNat (l.entries K w.store).length)
      ((l.window K w.store (l.numberOf K w.store number)).filterMap (l.job K w.store)) := by
  obtain ⟨hw, hr⟩ := (solo_shown htyped).mp h
  split at hr
  · exact ⟨hw, Except.ok.inj hr⟩
  · cases hr

/-- **When a page is right.** No overflow happens before its start. If it begins behind the list it
shows nothing, and if there are entries behind it, all that was read for it has jobs. -/
theorem covers_iff (htyped : l.Typed K w.store)
    (hlen : (l.entries K w.store).length + 51 ≤ 2 ^ 63) {page : UInt64} {p : JobPage}
    (h : Solo Reliable (l.shown K page) w (.ok p) w') :
    p.Covers (l.entries K w.store).length ↔
      JobPage.skipped (l.numberOf K w.store page) + 1 < 2 ^ 64 ∧
      ((l.entries K w.store).length ≤ JobPage.skipped (l.numberOf K w.store page) →
        ∀ entry ∈ l.window K w.store (l.numberOf K w.store page),
          l.job K w.store entry = none) ∧
      (JobPage.skipped (l.numberOf K w.store page) + 50 < (l.entries K w.store).length →
        ∀ entry ∈ l.window K w.store (l.numberOf K w.store page),
          l.job K w.store entry ≠ none) := by
  obtain ⟨-, rfl⟩ := shown_ok htyped h
  generalize l.numberOf K w.store page = number
  have htotal : (UInt64.ofNat (l.entries K w.store).length).toNat =
      (l.entries K w.store).length := by
    rw [UInt64.toNat_ofNat', Nat.mod_eq_of_lt (by omega)]
  rcases Nat.lt_or_ge (JobPage.skipped number) (l.entries K w.store).length with hin | hout
  · -- the page begins within the list, and one more entry is read than it shows
    rw [JobList.window_eq (by omega)]
    have hcount : (((l.entries K w.store).drop (JobPage.skipped number)).take 51).length ≤
        (l.entries K w.store).length - JobPage.skipped number := by
      rw [← List.length_drop]
      exact List.length_take_le' ..
    have hjobs := (List.length_filterMap_le (l.job K w.store) _).trans hcount
    rw [JobPage.covers_new_of_lt htotal (by omega) hin (by omega)]
    have hahead := lt_length_ahead_iff (f := l.job K w.store) (m := 50)
      (l := (l.entries K w.store).drop (JobPage.skipped number))
    rw [List.length_drop] at hahead
    constructor
    · intro hnext
      exact ⟨by omega, fun hout => by omega, fun hmore => (hahead.mp (hnext.mpr hmore)).2⟩
    · rintro ⟨-, -, hall⟩
      exact ⟨fun hnext => by have := (hahead.mp hnext).1; omega,
        fun hmore => hahead.mpr ⟨by omega, hall hmore⟩⟩
  · rw [JobPage.covers_new_of_le hout, List.filterMap_eq_nil_iff]
    constructor
    · rintro ⟨hstart, hnone⟩
      exact ⟨hstart, fun _ => hnone, fun hmore => by omega⟩
    · rintro ⟨hstart, hnone, -⟩
      exact ⟨hstart, hnone hout⟩

end Covers

/-! ## Following the links -/

namespace JobPage

theorem toNat_pages (total : UInt64) : (pages total).toNat = (total.toNat + 49) / 50 := by
  have hdiv : (total / jobsPerPage).toNat = total.toNat / 50 := UInt64.toNat_div ..
  have hmod : (total % jobsPerPage).toNat = total.toNat % 50 := UInt64.toNat_mod ..
  have hlt := total.toNat_lt
  rw [pages]
  split
  · next hzero =>
    rw [← UInt64.toNat_inj, hmod, UInt64.toNat_zero] at hzero
    omega
  · next hrest =>
    rw [← UInt64.toNat_inj, hmod, UInt64.toNat_zero] at hrest
    rw [UInt64.toNat_add, hdiv, UInt64.toNat_one]
    omega

theorem max_one_eq {page : UInt64} (hone : 1 ≤ page.toNat) : max page 1 = page := by
  rw [← UInt64.toNat_inj, toNat_max_one, Nat.max_eq_left hone]

/-- The page after one that is not the last has the next number and begins fifty jobs later. -/
theorem skipped_succ {page : UInt64} (hone : 1 ≤ page.toNat) (hlt : skipped page < 2 ^ 63) :
    (page + 1).toNat = page.toNat + 1 ∧ skipped (page + 1) = skipped page + 50 := by
  rw [skipped, Nat.max_eq_left hone] at hlt
  have hsucc : (page + 1).toNat = page.toNat + 1 := by
    rw [UInt64.toNat_add, UInt64.toNat_one, Nat.mod_eq_of_lt (by omega)]
  refine ⟨hsucc, ?_⟩
  rw [skipped, skipped, hsucc]
  omega

/-- The number of a page that exists is not changed when it is limited to the pages that exist. -/
theorem clampNumber_eq {page total : UInt64} (hone : 1 ≤ page.toNat)
    (hpage : page.toNat = 1 ∨ skipped page < total.toNat) : clampNumber page total = page := by
  have hlast : (max (pages total) 1).toNat = max ((total.toNat + 49) / 50) 1 := by
    rw [toNat_max_one, toNat_pages]
  rw [skipped, Nat.max_eq_left hone] at hpage
  rw [clampNumber, if_neg, if_neg]
  · rw [UInt64.lt_iff_toNat_lt, hlast]
    omega
  · rw [UInt64.lt_iff_toNat_lt, UInt64.toNat_one]
    omega

end JobPage

section Walk

variable {K : StorageKeys} {w : World γ} {l : JobList}

theorem numberOf_eq {page : UInt64} (hlen : (l.entries K w.store).length < 2 ^ 64)
    (hone : 1 ≤ page.toNat)
    (hpage : page.toNat = 1 ∨ JobPage.skipped page < (l.entries K w.store).length) :
    l.numberOf K w.store page = page := by
  cases l with
  | queue name =>
    refine JobPage.clampNumber_eq hone ?_
    rw [UInt64.toNat_ofNat', Nat.mod_eq_of_lt hlen]
    exact hpage
  | dead => rfl
  | retries => rfl
  | scheduled => rfl

theorem window_jobs {number : UInt64} (h : JobPage.skipped number + 51 ≤ 2 ^ 63) :
    (l.window K w.store number).filterMap (l.job K w.store) =
      ahead (l.job K w.store) 50 ((l.entries K w.store).drop (JobPage.skipped number)) := by
  rw [JobList.window_eq h]
  rfl

/-- A page that a link leads to shows the first fifty of the entries behind those of the pages
before. -/
theorem shown_within (htyped : l.Typed K w.store)
    (hlen : (l.entries K w.store).length + 51 ≤ 2 ^ 63) {number : UInt64} {page : JobPage}
    (h : Solo Reliable (l.shown K number) w (.ok page) w) (hone : 1 ≤ number.toNat)
    (hpage : number.toNat = 1 ∨ JobPage.skipped number < (l.entries K w.store).length) :
    page = .new number (UInt64.ofNat (l.entries K w.store).length)
      (ahead (l.job K w.store) 50 ((l.entries K w.store).drop (JobPage.skipped number))) := by
  have hskipped : JobPage.skipped number + 51 ≤ 2 ^ 63 := by
    rcases hpage with hpage | hpage
    · simp [JobPage.skipped, hpage]
    · omega
  obtain ⟨-, rfl⟩ := shown_ok htyped h
  rw [numberOf_eq (by omega) hone hpage, window_jobs hskipped]

/-- From one page on, the links lead to all jobs exactly if pages that lack one have none behind
them. -/
theorem visits_iff (htyped : l.Typed K w.store)
    (hlen : (l.entries K w.store).length + 51 ≤ 2 ^ 63) {page : UInt64} {jobs : List JobEnvelope}
    (h : Visits (l.shown K) w page jobs) (hone : 1 ≤ page.toNat)
    (hpage : page.toNat = 1 ∨ JobPage.skipped page < (l.entries K w.store).length) :
    jobs = ((l.entries K w.store).drop (JobPage.skipped page)).filterMap (l.job K w.store) ↔
      Closed (l.job K w.store) 50 ((l.entries K w.store).drop (JobPage.skipped page)) := by
  induction h with
  | @last number page hshown hnext =>
    obtain rfl := shown_within htyped hlen hshown hone hpage
    rw [← Bool.not_eq_true, JobPage.hasNext_new] at hnext
    exact take_ahead_eq_iff hnext
  | @next number page rest hshown hnext hrest ih =>
    obtain rfl := shown_within htyped hlen hshown hone hpage
    rw [JobPage.hasNext_new] at hnext
    -- the next page begins within the list
    have hmore := (lt_length_ahead_iff.mp hnext).1
    rw [List.length_drop] at hmore
    obtain ⟨hsucc, hskip⟩ := JobPage.skipped_succ hone (by omega)
    have hthis : (JobPage.new number (UInt64.ofNat (l.entries K w.store).length)
        (ahead (l.job K w.store) 50
          ((l.entries K w.store).drop (JobPage.skipped number)))).number = number :=
      JobPage.max_one_eq hone
    rw [hthis, hsucc, hskip, ← List.drop_drop] at ih
    have hrest := ih (by omega) (.inr (by omega))
    rw [JobPage.jobs_new, ← take_ahead_append hnext, List.append_cancel_left_eq, hrest,
      closed_iff_drop hnext]

/-- The links come to an end if all entries can be shown, since every page has a greater number than
the one before. -/
theorem exists_visits (htyped : l.Typed K w.store)
    (hlen : (l.entries K w.store).length + 51 ≤ 2 ^ 63)
    (hlegible : ∀ entry ∈ l.entries K w.store, l.legible K w.store entry = true) (k : ℕ) :
    ∀ page : UInt64, 1 ≤ page.toNat →
      (page.toNat = 1 ∨ JobPage.skipped page < (l.entries K w.store).length) →
      (l.entries K w.store).length < JobPage.skipped page + k →
      ∃ jobs, Visits (l.shown K) w page jobs := by
  induction k with
  | zero =>
    intro page hone hpage hk
    rcases hpage with hpage | hpage
    · simp [JobPage.skipped, hpage] at hk
    · omega
  | succ k ih =>
    intro number hone hpage hk
    have hall : (l.window K w.store (l.numberOf K w.store number)).all
        (l.legible K w.store) = true := by
      rw [List.all_eq_true]
      exact fun entry hentry => hlegible entry (mem_of_mem_between hentry)
    have hshown : Solo Reliable (l.shown K number) w (.ok _) w :=
      (solo_shown htyped).mpr ⟨rfl, (if_pos hall).symm⟩
    rw [shown_within htyped hlen hshown hone hpage] at hshown
    by_cases hnext : 50 < (ahead (l.job K w.store) 50
        ((l.entries K w.store).drop (JobPage.skipped number))).length
    · have hmore := (lt_length_ahead_iff.mp hnext).1
      rw [List.length_drop] at hmore
      obtain ⟨hsucc, hskip⟩ := JobPage.skipped_succ hone (by omega)
      obtain ⟨rest, hrest⟩ := ih (number + 1) (by omega) (.inr (by omega)) (by omega)
      rw [← JobPage.max_one_eq hone] at hrest
      exact ⟨_, .next hshown (JobPage.hasNext_new.mpr hnext) hrest⟩
    · refine ⟨_, .last hshown ?_⟩
      rwa [← Bool.not_eq_true, JobPage.hasNext_new]

/-- **When pages cover a list**, which the server counts in signed numbers. A page is right if no
overflow happens before its start, if it shows nothing when it begins behind the list, and if all
that was read for it has jobs when there are entries behind it. The links from the first page lead
to every job exactly once if a page for which something was read that has no job is followed by
none. They come to an end if everything can be read. -/
theorem pages_cover_iff (htyped : l.Typed K w.store)
    (hlen : (l.entries K w.store).length + 51 ≤ 2 ^ 63) :
    (∀ page p w', Solo Reliable (l.shown K page) w (.ok p) w' →
      (p.Covers (l.entries K w.store).length ↔
        JobPage.skipped (l.numberOf K w.store page) + 1 < 2 ^ 64 ∧
        ((l.entries K w.store).length ≤ JobPage.skipped (l.numberOf K w.store page) →
          ∀ entry ∈ l.window K w.store (l.numberOf K w.store page),
            l.job K w.store entry = none) ∧
        (JobPage.skipped (l.numberOf K w.store page) + 50 < (l.entries K w.store).length →
          ∀ entry ∈ l.window K w.store (l.numberOf K w.store page),
            l.job K w.store entry ≠ none))) ∧
    (∀ jobs, Visits (l.shown K) w 1 jobs →
      (jobs = (l.entries K w.store).filterMap (l.job K w.store) ↔
        Closed (l.job K w.store) 50 (l.entries K w.store))) ∧
    ((∀ entry ∈ l.entries K w.store, l.legible K w.store entry = true) →
      ∃ jobs, Visits (l.shown K) w 1 jobs) := by
  refine ⟨fun page p w' h => covers_iff htyped hlen h, fun jobs h => ?_, fun h => ?_⟩
  · exact visits_iff htyped hlen h (Nat.le_refl 1) (.inl rfl)
  · exact exists_visits htyped hlen h ((l.entries K w.store).length + 1) 1 (Nat.le_refl 1) (.inl rfl)
      (by omega)

end Walk

/-! ## A missing payload -/

section Missing

/-- All that holds of the pages of a list of dead jobs: each page is right under its condition, the
links lead to every job under theirs, and they come to an end. -/
theorem deadPosts_visited :
    (∀ page p w', Solo Reliable (JobList.dead.shown (.new "app") page) deadPosts (.ok p) w' →
      (p.Covers (JobList.dead.entries (.new "app") deadPosts.store).length ↔
        JobPage.skipped (JobList.dead.numberOf (.new "app") deadPosts.store page) + 1 < 2 ^ 64 ∧
        ((JobList.dead.entries (.new "app") deadPosts.store).length ≤
            JobPage.skipped (JobList.dead.numberOf (.new "app") deadPosts.store page) →
          ∀ entry ∈ JobList.dead.window (.new "app") deadPosts.store
              (JobList.dead.numberOf (.new "app") deadPosts.store page),
            JobList.dead.job (.new "app") deadPosts.store entry = none) ∧
        (JobPage.skipped (JobList.dead.numberOf (.new "app") deadPosts.store page) + 50 <
            (JobList.dead.entries (.new "app") deadPosts.store).length →
          ∀ entry ∈ JobList.dead.window (.new "app") deadPosts.store
              (JobList.dead.numberOf (.new "app") deadPosts.store page),
            JobList.dead.job (.new "app") deadPosts.store entry ≠ none))) ∧
    (∀ jobs, Visits (JobList.dead.shown (.new "app")) deadPosts 1 jobs →
      (jobs = (JobList.dead.entries (.new "app") deadPosts.store).filterMap
          (JobList.dead.job (.new "app") deadPosts.store) ↔
        Closed (JobList.dead.job (.new "app") deadPosts.store) 50
          (JobList.dead.entries (.new "app") deadPosts.store))) ∧
    ∃ jobs, Visits (JobList.dead.shown (.new "app")) deadPosts 1 jobs := by
  have hlen : (JobList.dead.entries (.new "app") deadPosts.store).length + 51 ≤ 2 ^ 63 := by
    rw [deadPosts_entries]
    decide
  obtain ⟨hpages, hlinks, hends⟩ := pages_cover_iff deadPosts_typed hlen
  exact ⟨hpages, hlinks, hends fun _ _ => rfl⟩

/-- The ids of 52 jobs of the sample that wait for a retry. -/
def waitingIds : List JobId := (List.range 52).map toString

/-- The world in which the payload of the first of them is gone. -/
def waitingRetries : World Unit :=
  ⟨(Store.empty.put (StorageKeys.new "app").retry (.zset (waitingIds.map fun id => (id, 7)))).put
    (StorageKeys.new "app").jobs (.hash (waitingIds.tail.map fun id => (id, deadPost.encode))), 0, ()⟩

theorem lookup_const {α β : Type} [BEq α] [LawfulBEq α] (l : List α) (x : β) (a : α) :
    (l.map fun b => (b, x)).lookup a = if a ∈ l then some x else none := by
  induction l with
  | nil => rfl
  | cons b l ih =>
    rw [List.map_cons, List.lookup_cons, ih]
    by_cases hab : a = b
    · simp [hab]
    · simp [hab, beq_false_of_ne hab]

theorem waitingRetries_typed : JobList.retries.Typed (.new "app") waitingRetries.store := by
  refine ⟨?_, Store.fits_put_self _⟩
  exact (Store.fits_put_self _).put _ fun h => absurd h.symm StorageKeys.jobs_ne_retry

theorem waitingRetries_entries :
    JobList.retries.entries (.new "app") waitingRetries.store = waitingIds := by
  have hset : waitingRetries.store.zset (StorageKeys.new "app").retry =
      waitingIds.map fun id => (id, 7) := by
    rw [waitingRetries, Store.zset_put_ne _ StorageKeys.jobs_ne_retry.symm]
    exact Store.zset_put_self ..
  rw [JobList.entries, hset, List.map_map]
  exact List.map_id _

theorem waitingRetries_payload (id : JobId) :
    payloadOf (StorageKeys.new "app").jobs waitingRetries.store id =
      if id ∈ waitingIds.tail then some deadPost.encode else none := by
  rw [payloadOf, waitingRetries, Store.hash_put_self, lookup_const]

theorem waitingRetries_job (id : JobId) :
    JobList.retries.job (.new "app") waitingRetries.store id =
      if id ∈ waitingIds.tail then some deadPost.normalize else none := by
  change (payloadOf _ _ id).bind JobEnvelope.decode = _
  rw [waitingRetries_payload]
  split
  · rw [Option.bind_some, decode_encode]
  · rfl

theorem waitingRetries_legible (id : JobId) :
    JobList.retries.legible (.new "app") waitingRetries.store id = true := by
  have hjob := waitingRetries_job id
  change ((payloadOf _ _ id).isNone || (JobList.retries.job _ _ id).isSome) = true
  rw [waitingRetries_payload, hjob]
  split
  · rfl
  · rfl

/-- A list of retries whose first entry has no payload: no link leads from the first page to the
others, and the last job is not seen. -/
theorem waitingRetries_missed :
    (∃ p w', Solo Reliable (JobList.retries.shown (.new "app") 1) waitingRetries (.ok p) w' ∧
      ¬ p.Covers (JobList.retries.entries (.new "app") waitingRetries.store).length) ∧
    ∃ jobs, Visits (JobList.retries.shown (.new "app")) waitingRetries 1 jobs ∧
      jobs ≠ (JobList.retries.entries (.new "app") waitingRetries.store).filterMap
        (JobList.retries.job (.new "app") waitingRetries.store) := by
  have hlen : (JobList.retries.entries (.new "app") waitingRetries.store).length + 51 ≤ 2 ^ 63 := by
    rw [waitingRetries_entries]
    decide
  have hgap : JobList.retries.job (.new "app") waitingRetries.store "0" = none := by
    rw [waitingRetries_job, if_neg (by decide)]
  have hlast : JobList.retries.job (.new "app") waitingRetries.store "51" ≠ none := by
    rw [waitingRetries_job, if_pos (by decide)]
    simp
  refine ⟨?_, ?_⟩
  · have hshown : Solo Reliable (JobList.retries.shown (.new "app") 1) waitingRetries (.ok _)
        waitingRetries := (solo_shown waitingRetries_typed).mpr ⟨rfl, (if_pos ?_).symm⟩
    · refine ⟨_, _, hshown, fun h => ?_⟩
      have hall := ((covers_iff waitingRetries_typed hlen hshown).mp h).2.2
      rw [waitingRetries_entries] at hall
      refine hall (by decide) "0" ?_ hgap
      rw [JobList.window_eq (by decide), waitingRetries_entries]
      decide
    · rw [List.all_eq_true]
      exact fun entry _ => waitingRetries_legible entry
  · obtain ⟨jobs, hjobs⟩ := exists_visits waitingRetries_typed hlen
      (fun entry _ => waitingRetries_legible entry) 53 1 (Nat.le_refl 1) (.inl rfl) (by
        rw [waitingRetries_entries]
        decide)
    refine ⟨jobs, hjobs, fun hall => ?_⟩
    have hclosed := (visits_iff waitingRetries_typed hlen hjobs (Nat.le_refl 1) (.inl rfl)).mp hall
    rw [waitingRetries_entries] at hclosed
    exact hlast (hclosed 0 (by decide) ⟨"0", by decide, hgap⟩ "51" (by decide))

end Missing

end Oxana
