import Mathlib.Logic.Function.Basic
import Oxana.Redis.Store
import Oxana.Table

/-!
# Counters that expire

The part of the server that counts: hashes of integers (`HINCRBY`), strings
read as arrays of 16-bit cells with saturating increments (`BITFIELD`), and
expiry. A key past its expiry is gone for every command and every read.

What has been counted is a function of the commands alone as long as the key
lives. `FieldsKept` and `CellsKept` say so for one key up to a deadline before
which nothing lets it expire; both are kept by every successful command
(`FieldsKept.run`, `CellsKept.run`).
-/

namespace Redis

/-- What a key of counters holds: fields with numbers, or an array of 16-bit cells. -/
inductive CounterValue where
  /-- a hash of integers -/
  | fields (table : Table String Int)
  /-- a string, as an array of unsigned 16-bit integers -/
  | cells (cell : ℕ → UInt16)

/-- A key's value, and the instant (in milliseconds) it expires at. -/
structure CounterEntry where
  /-- the counters -/
  value : CounterValue
  /-- unless it is kept for good -/
  expiresAt : Option Int

/-- The keys of counters, with what is stored there. -/
abbrev CounterStore := Key → Option CounterEntry

/-- A command that counts, or that says when a key is to be forgotten. -/
inductive CounterCommand where
  /-- `HINCRBY` -/
  | hincr (k : Key) (f : String) (n : Int)
  /-- `EXPIRE`, in seconds -/
  | expire (k : Key) (secs : Int)
  /-- `BITFIELD … OVERFLOW SAT INCRBY u16 #i n …` -/
  | bitfield (k : Key) (increments : List (ℕ × ℕ))
  deriving DecidableEq

/-- The one key that a command on counters is about. -/
def CounterCommand.key : CounterCommand → Key
  | .hincr k _ _ => k
  | .expire k _ => k
  | .bitfield k _ => k

namespace CounterStore

/-- A key read as a hash: an absent one is empty, another type is refused. -/
def fieldsOf : Option CounterEntry → Option (Table String Int)
  | none => some Table.empty
  | some ⟨.fields m, _⟩ => some m
  | some ⟨.cells _, _⟩ => none

/-- A key read as an array of cells, all zero when it is absent. -/
def cellsOf : Option CounterEntry → Option (ℕ → UInt16)
  | none => some fun _ => 0
  | some ⟨.fields _, _⟩ => none
  | some ⟨.cells c, _⟩ => some c

/-- The time at which a key expires, if one has been set. -/
def expiryOf (e : Option CounterEntry) : Option Int := e.bind CounterEntry.expiresAt

/-- What a key holds now: nothing once it has expired. -/
def live (now : Int) (s : CounterStore) (k : Key) : Option CounterEntry :=
  (s k).filter fun e => e.expiresAt.all fun t => decide (now ≤ t)

/-- The value of a field that is counted up is a 64-bit integer. -/
def fits64 (n : Int) : Bool := decide (-2 ^ 63 ≤ n) && decide (n < 2 ^ 63)

/-- A saturating increment of one cell of a histogram. -/
def addCell (c : ℕ → UInt16) (e : ℕ × ℕ) : ℕ → UInt16 :=
  Function.update c e.1 (UInt16.ofNat (min 65535 ((c e.1).toNat + e.2)))

/-- One command: the new store, or an error that leaves it as it is. -/
def run (now : Int) (s : CounterStore) : CounterCommand → Option CounterStore
  | .hincr k f n => (fieldsOf (live now s k)).bind fun m =>
      if fits64 ((m.find f).getD 0 + n) then
        some (Function.update s k
          (some ⟨.fields (m.modify f 0 (· + n)), expiryOf (live now s k)⟩))
      else none
  | .expire k secs => match live now s k with
    | none => some s
    | some e =>
      if 0 < secs then
        some (Function.update s k (some { e with expiresAt := some (now + secs * 1000) }))
      else some (Function.update s k none)
  | .bitfield k increments => (cellsOf (live now s k)).map fun c =>
      Function.update s k
        (some ⟨.cells (increments.foldl addCell c), expiryOf (live now s k)⟩)

/-- `HGETALL`: all fields of a hash that has not expired, or an error for another type. -/
def hgetall (now : Int) (k : Key) (s : CounterStore) : Option (List (String × Int)) :=
  (fieldsOf (live now s k)).map Table.entries

/-- `HGET` of one field of a hash that has not expired. -/
def hget (now : Int) (k : Key) (f : String) (s : CounterStore) : Option (Option Int) :=
  (fieldsOf (live now s k)).map fun m => m.find f

/-- `BITFIELD … GET u16 #0 … GET u16 #(n-1)`: the first `n` cells of a histogram. -/
def bitfieldGet (now : Int) (k : Key) (n : ℕ) (s : CounterStore) : Option (List ℕ) :=
  (cellsOf (live now s k)).map fun c => (List.range n).map fun i => (c i).toNat

variable {s s' : CounterStore} {k : Key} {now deadline : Int} {log : List CounterCommand}
  {c : CounterCommand}

/-- A command changes no key but the one it is about. -/
theorem run_frame (hrun : run now s c = some s') (h : c.key ≠ k) : s' k = s k := by
  have hk : k ≠ c.key := fun he => h he.symm
  cases c with
  | hincr k' f n =>
    simp only [run, Option.bind_eq_some_iff] at hrun
    obtain ⟨m, -, hrun⟩ := hrun
    split at hrun <;> cases hrun
    exact Function.update_of_ne hk ..
  | expire k' secs =>
    simp only [run] at hrun
    split at hrun
    · cases hrun; rfl
    · split at hrun <;> cases hrun <;> exact Function.update_of_ne hk ..
  | bitfield k' increments =>
    simp only [run, Option.map_eq_some_iff] at hrun
    obtain ⟨_, -, rfl⟩ := hrun
    exact Function.update_of_ne hk ..

/-- A key whose expiry has not been reached is still there, with all it holds. -/
theorem live_of_kept (h : ∀ t, expiryOf (s k) = some t → deadline ≤ t) (hnow : now < deadline) :
    live now s k = s k := by
  rw [live]
  cases he : s k with
  | none => rfl
  | some e =>
    rw [Option.filter_some, if_pos]
    cases ht : e.expiresAt with
    | none => rfl
    | some t =>
      have : deadline ≤ t := h t (by rw [he]; exact ht)
      simp only [Option.all_some, decide_eq_true_eq]
      omega

/-- A positive `EXPIRE` changes the expiry of a key and nothing else: its fields or cells are as
they were. -/
theorem run_expire {secs : Int} (hsecs : 0 < secs) (hlive : live now s k = s k)
    (hrun : run now s (.expire k secs) = some s') :
    s' k = (s k).map fun e => { e with expiresAt := some (now + secs * 1000) } := by
  simp only [run, hlive] at hrun
  split at hrun
  · next he => cases hrun; rw [he]; rfl
  · next e he =>
    rw [if_pos hsecs] at hrun
    cases hrun
    rw [Function.update_self, he]
    rfl

/-- An increment of a field adds to this field of the hash under the key, if the key holds a hash.
-/
theorem run_hincr {f : String} {n : Int} {m : Table String Int} (hlive : live now s k = s k)
    (hm : fieldsOf (s k) = some m) (hrun : run now s (.hincr k f n) = some s') :
    s' k = some ⟨.fields (m.modify f 0 (· + n)), expiryOf (s k)⟩ := by
  simp only [run, hlive, hm, Option.bind_some] at hrun
  split at hrun <;> cases hrun
  exact Function.update_self ..

/-- Increments of cells are done one after the other, if the key holds an array. -/
theorem run_bitfield {increments : List (ℕ × ℕ)} {cell : ℕ → UInt16}
    (hlive : live now s k = s k) (hcell : cellsOf (s k) = some cell)
    (hrun : run now s (.bitfield k increments) = some s') :
    s' k = some ⟨.cells (increments.foldl addCell cell), expiryOf (s k)⟩ := by
  simp only [run, hlive, hcell, Option.map_some] at hrun
  cases hrun
  exact Function.update_self ..

/-! ### Hashes -/

/-- The increments of a hash that are among the commands. -/
def fieldLog (k : Key) (log : List CounterCommand) : List (String × Int) :=
  log.filterMap fun
    | .hincr k' f n => if k' = k then some (f, n) else none
    | _ => none

/-- The hash that a list of increments makes, field by field. -/
def tally (increments : List (String × Int)) : Table String Int :=
  Table.collect Prod.fst 0 (fun v e => v + e.2) increments

/-- The command keeps the hash under this key until the deadline. -/
def KeepsFields (deadline : Int) (k : Key) (now : Int) : CounterCommand → Prop
  | .hincr _ _ _ => True
  | .expire k' secs => k' = k → 0 < secs ∧ deadline ≤ now + secs * 1000
  | .bitfield k' _ => k' ≠ k

/-- The hash under a key is what the commands so far have made it, and it will
stay until the deadline. -/
structure FieldsKept (deadline : Int) (k : Key) (log : List CounterCommand) (s : CounterStore) :
    Prop where
  /-- what it holds -/
  value : fieldsOf (s k) = some (tally (fieldLog k log))
  /-- that it stays -/
  kept : ∀ t, expiryOf (s k) = some t → deadline ≤ t

theorem fieldsKept_nil (h : s k = none) : FieldsKept deadline k [] s where
  value := by rw [h]; rfl
  kept := by rw [h]; rintro t ⟨⟩

/-- The increments of a log and one more command are those of the log and that of the command. -/
theorem fieldLog_concat (k : Key) (l : List CounterCommand) (c : CounterCommand) :
    fieldLog k (l ++ [c]) = fieldLog k l ++ fieldLog k [c] := List.filterMap_append

/-- One more increment of a field is one addition to what has been tallied. -/
theorem tally_concat (l : List (String × Int)) (f : String) (n : Int) :
    tally (l ++ [(f, n)]) = (tally l).modify f 0 (· + n) := Table.collect_concat l (f, n)

/-- Commands about other keys do not count in the log of a hash. -/
theorem fieldLog_frame (h : c.key ≠ k) : fieldLog k [c] = [] := by
  cases c with
  | hincr k' f n =>
    have hk : k' ≠ k := h
    simp [fieldLog, hk]
  | expire k' secs => rfl
  | bitfield k' increments => rfl

/-- **Hashes count**: a successful command before the deadline is accounted for in the hash that the
log of commands makes. -/
theorem FieldsKept.run (h : FieldsKept deadline k log s) (hnow : now < deadline)
    (hc : KeepsFields deadline k now c) (hrun : CounterStore.run now s c = some s') :
    FieldsKept deadline k (log ++ [c]) s' := by
  have hlive : live now s k = s k := live_of_kept h.kept hnow
  by_cases hk : c.key = k
  · cases c with
    | hincr k' f n =>
      obtain rfl : k' = k := hk
      have hs := run_hincr hlive h.value hrun
      have hlog : fieldLog k' [.hincr k' f n] = [(f, n)] := by simp [fieldLog]
      exact ⟨by rw [hs, fieldLog_concat, hlog, tally_concat]; rfl, by rw [hs]; exact h.kept⟩
    | expire k' secs =>
      obtain rfl : k' = k := hk
      obtain ⟨hsecs, hdeadline⟩ := hc rfl
      have hs := run_expire hsecs hlive hrun
      have hv := h.value
      have hlog : fieldLog k' (log ++ [.expire k' secs]) = fieldLog k' log := by
        rw [fieldLog_concat]
        exact List.append_nil _
      cases he : s k' with
      | none =>
        rw [he] at hs hv
        exact ⟨by rw [hs, hlog]; exact hv, by rw [hs]; rintro t ⟨⟩⟩
      | some e =>
        rw [he] at hs hv
        refine ⟨?_, by rw [hs]; rintro t ⟨⟩; exact hdeadline⟩
        rw [hs, hlog]
        obtain ⟨v, t⟩ := e
        cases v with
        | fields m => exact hv
        | cells c => cases hv
    | bitfield k' increments => exact absurd hk hc
  · have hs : s' k = s k := run_frame hrun hk
    refine ⟨?_, by rw [hs]; exact h.kept⟩
    rw [fieldLog_concat, fieldLog_frame hk, List.append_nil, hs]
    exact h.value

/-- Until the deadline, `HGETALL` answers with the tally of all increments that there have been. -/
theorem FieldsKept.hgetall (h : FieldsKept deadline k log s) (hnow : now < deadline) :
    CounterStore.hgetall now k s = some (tally (fieldLog k log)).entries := by
  rw [CounterStore.hgetall, live_of_kept h.kept hnow, h.value]
  rfl

/-- Until the deadline, `HGET` answers with what the increments of the field add up to. -/
theorem FieldsKept.hget (h : FieldsKept deadline k log s) (hnow : now < deadline) (f : String) :
    CounterStore.hget now k f s = some ((tally (fieldLog k log)).find f) := by
  rw [CounterStore.hget, live_of_kept h.kept hnow, h.value]
  rfl

/-! ### Arrays of cells -/

/-- The increments of an array that are among the commands. -/
def cellLog (k : Key) (log : List CounterCommand) : List (ℕ × ℕ) :=
  log.flatMap fun
    | .bitfield k' increments => if k' = k then increments else []
    | _ => []

/-- How much a list of increments adds to one cell. -/
def cellSum (i : ℕ) (increments : List (ℕ × ℕ)) : ℕ :=
  (increments.map fun e => if e.1 = i then e.2 else 0).sum

/-- The command keeps the array under this key until the deadline. -/
def KeepsCells (deadline : Int) (k : Key) (now : Int) : CounterCommand → Prop
  | .hincr k' _ _ => k' ≠ k
  | .expire k' secs => k' = k → 0 < secs ∧ deadline ≤ now + secs * 1000
  | .bitfield _ _ => True

/-- The array under a key is what the commands so far have made it, each cell
saturating, and it will stay until the deadline. -/
structure CellsKept (deadline : Int) (k : Key) (log : List CounterCommand) (s : CounterStore) :
    Prop where
  /-- what it holds -/
  value : ∃ c, cellsOf (s k) = some c ∧ ∀ i, (c i).toNat = min 65535 (cellSum i (cellLog k log))
  /-- that it stays -/
  kept : ∀ t, expiryOf (s k) = some t → deadline ≤ t

theorem cellsKept_nil (h : s k = none) : CellsKept deadline k [] s where
  value := ⟨fun _ => 0, by rw [h]; rfl, fun i => by simp [cellLog, cellSum]⟩
  kept := by rw [h]; rintro t ⟨⟩

/-- The increments of a log and one more command are those of the log and those of the command. -/
theorem cellLog_concat (k : Key) (l : List CounterCommand) (c : CounterCommand) :
    cellLog k (l ++ [c]) = cellLog k l ++ cellLog k [c] := List.flatMap_append

/-- Two lists of increments add as much to a cell as both of them together. -/
theorem cellSum_append (i : ℕ) (l l' : List (ℕ × ℕ)) :
    cellSum i (l ++ l') = cellSum i l + cellSum i l' := by simp [cellSum]

/-- Commands about other keys do not count in the log of an array. -/
theorem cellLog_frame (h : c.key ≠ k) : cellLog k [c] = [] := by
  cases c with
  | hincr k' f n => rfl
  | expire k' secs => rfl
  | bitfield k' increments =>
    have hk : k' ≠ k := h
    simp [cellLog, hk]

/-- One increment adds to its own cell, up to the largest value of a cell, and to no other. -/
theorem toNat_addCell (c : ℕ → UInt16) (e : ℕ × ℕ) (i : ℕ) :
    (addCell c e i).toNat = min 65535 ((c i).toNat + if e.1 = i then e.2 else 0) := by
  have hc : (c i).toNat < 65536 := (c i).toNat_lt
  by_cases hi : i = e.1
  · subst hi
    rw [addCell, Function.update_self, if_pos rfl, UInt16.toNat_ofNat_of_lt']
    exact Nat.lt_of_le_of_lt (Nat.min_le_left ..) (by decide)
  · rw [addCell, Function.update_of_ne hi, if_neg (fun h => hi h.symm)]
    omega

/-- Saturating increments add up to a saturating sum, in whatever order they come. -/
theorem toNat_foldl_addCell (es : List (ℕ × ℕ)) (c : ℕ → UInt16) (i : ℕ) :
    (es.foldl addCell c i).toNat = min 65535 ((c i).toNat + cellSum i es) := by
  induction es generalizing c with
  | nil =>
    have hc : (c i).toNat < 65536 := (c i).toNat_lt
    simp only [List.foldl_nil, cellSum, List.map_nil, List.sum_nil]
    omega
  | cons e es ih =>
    rw [List.foldl_cons, ih, toNat_addCell]
    simp only [cellSum, List.map_cons, List.sum_cons]
    omega

/-- **Arrays count**: a successful command before the deadline is accounted for in the cells that
the log of commands makes. -/
theorem CellsKept.run (h : CellsKept deadline k log s) (hnow : now < deadline)
    (hc : KeepsCells deadline k now c) (hrun : CounterStore.run now s c = some s') :
    CellsKept deadline k (log ++ [c]) s' := by
  have hlive : live now s k = s k := live_of_kept h.kept hnow
  obtain ⟨cell, hcell, hsum⟩ := h.value
  by_cases hk : c.key = k
  · cases c with
    | hincr k' f n => exact absurd hk hc
    | expire k' secs =>
      obtain rfl : k' = k := hk
      obtain ⟨hsecs, hdeadline⟩ := hc rfl
      have hs := run_expire hsecs hlive hrun
      have hlog : cellLog k' (log ++ [.expire k' secs]) = cellLog k' log := by
        rw [cellLog_concat]
        exact List.append_nil _
      cases he : s k' with
      | none =>
        rw [he] at hs hcell
        exact ⟨⟨cell, by rw [hs]; exact hcell, by rw [hlog]; exact hsum⟩, by rw [hs]; rintro t ⟨⟩⟩
      | some e =>
        rw [he] at hs hcell
        refine ⟨⟨cell, ?_, by rw [hlog]; exact hsum⟩, by rw [hs]; rintro t ⟨⟩; exact hdeadline⟩
        rw [hs]
        obtain ⟨v, t⟩ := e
        cases v with
        | fields m => cases hcell
        | cells c => exact hcell
    | bitfield k' increments =>
      obtain rfl : k' = k := hk
      have hs := run_bitfield hlive hcell hrun
      have hlog : cellLog k' [.bitfield k' increments] = increments := by simp [cellLog]
      refine ⟨⟨increments.foldl addCell cell, by rw [hs]; rfl, ?_⟩, by rw [hs]; exact h.kept⟩
      intro i
      rw [toNat_foldl_addCell, hsum, cellLog_concat, hlog, cellSum_append]
      omega
  · have hs : s' k = s k := run_frame hrun hk
    refine ⟨⟨cell, by rw [hs]; exact hcell, ?_⟩, by rw [hs]; exact h.kept⟩
    rw [cellLog_concat, cellLog_frame hk, List.append_nil]
    exact hsum

/-- Until the deadline, `BITFIELD … GET` answers with the saturating sums of all increments that
there have been. -/
theorem CellsKept.bitfieldGet (h : CellsKept deadline k log s) (hnow : now < deadline) (n : ℕ) :
    CounterStore.bitfieldGet now k n s =
      some ((List.range n).map fun i => min 65535 (cellSum i (cellLog k log))) := by
  obtain ⟨cell, hcell, hsum⟩ := h.value
  rw [CounterStore.bitfieldGet, live_of_kept h.kept hnow, hcell]
  simp only [Option.map_some, hsum]

end CounterStore

end Redis
