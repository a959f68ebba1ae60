import QLog.Foundations.Transition
import QLog.Appender.IndexedFiles

/-!
# Rolling files

A model of `refresh_file_handle`. With rolling enabled, the record that opens a file sets the time at which
the file expires, the end of its local day, and a record after this time opens a new file. The times are
unsigned numbers of 64 bits; the offset of the time zone is added and taken off as a signed number.

A file is meant to hold the records of one local day. It does not in three situations, which
`OneDayStep` describes: a record of the very first millisecond of a day is not after the time at which the file
of the day before expires; an offset that takes the record below zero makes the unsigned time wrap around,
so that the file expires at another time than midnight; and a file that is taken up again after a failed
call to open one is taken as it is. `rolling_one_day_iff` says that these are the only ones.
-/

namespace QLog.Appender

/-- The offsets that `parse_by_string` accepts, with one sign for hours and minutes. -/
structure ZoneOffset where
  gmtOffsetHours : ℤ
  gmtOffsetMinutes : ℤ
  hours_mem : -12 ≤ gmtOffsetHours ∧ gmtOffsetHours ≤ 14
  minutes_mem : if gmtOffsetHours < 0 then -59 ≤ gmtOffsetMinutes ∧ gmtOffsetMinutes ≤ 0
    else 0 ≤ gmtOffsetMinutes ∧ gmtOffsetMinutes ≤ 59

/-- `time_zone_diff_to_gmt_ms_`. -/
def ZoneOffset.diffToGmtMs (z : ZoneOffset) : ℤ := (z.gmtOffsetHours * 3600 + z.gmtOffsetMinutes * 60) * 1000

/-- The offset of UTC. -/
def ZoneOffset.utc : ZoneOffset := ⟨0, 0, by decide, by decide⟩

/-- `ms_per_day`. -/
def msPerDay : ℕ := 60 * 60 * 24 * 1000

/-- The conversion to `uint64_t`. -/
def toUInt64 (x : ℤ) : ℕ := (x % 2 ^ 64).toNat

/-- `current_file_expire_time_epoch_ms_` of a file that is opened at this time. -/
def expireTime (z : ZoneOffset) (currentTimeEpoch : ℕ) : ℕ :=
  let expire := toUInt64 ((currentTimeEpoch : ℤ) + z.diffToGmtMs)
  let expire : ℕ := (expire - expire % msPerDay + msPerDay) % 2 ^ 64
  toUInt64 ((expire : ℤ) - z.diffToGmtMs)

/-- The local day of a time. -/
def localDay (z : ZoneOffset) (epochMs : ℕ) : ℤ := (epochMs + z.diffToGmtMs) / msPerDay

/-- The appender: the open file, the time at which it expires, the directory, and the records that the
files received, each with its time. -/
structure RollingState where
  file : Option ℕ
  expire : ℕ
  dir : Directory
  received : List (ℕ × ℕ)

/-- What happens to the appender: a record arrives while the open file has this size, or writing to the
open file fails. -/
inductive RollingEvent
  | record (timestamp : UInt64) (fileSize : ℕ) (o : Opening)
  | writeError (o : Opening)

/-- Whether `refresh_file_handle` opens a new file. -/
def needCreateNewFile (cfg : FileConfig) (st : RollingState) (timestamp fileSize : ℕ) : Bool :=
  st.file.isNone || isFileOversize cfg fileSize || (cfg.enableRollingLogFile && st.expire < timestamp)

/-- `refresh_file_handle`. -/
def refreshFileHandle (cfg : FileConfig) (z : ZoneOffset) (st : RollingState) (timestamp fileSize : ℕ)
    (o : Opening) : Option RollingState :=
  if needCreateNewFile cfg st timestamp fileSize then
    (openNewIndexedFileByName cfg o st.file.isSome st.dir).map fun r =>
      { st with file := r.1, expire := expireTime z timestamp, dir := r.2 }
  else some st

/-- A record of this time goes into the open file. -/
def RollingState.receive (st : RollingState) (t : ℕ) : RollingState :=
  match st.file with
  | some f => { st with received := st.received ++ [(f, t)] }
  | none => st

/-- One event. A record is received by the file that is open after `refresh_file_handle`; after a failed
write `flush_write_cache` opens a new file. -/
def rollingStep (cfg : FileConfig) (z : ZoneOffset) (st : RollingState) : RollingEvent → Option RollingState
  | .record timestamp fileSize o =>
    (refreshFileHandle cfg z st timestamp.toNat fileSize o).map (·.receive timestamp.toNat)
  | .writeError o =>
    if st.file.isSome then
      (openNewIndexedFileByName cfg o true st.dir).map fun r => { st with file := r.1, dir := r.2 }
    else some st

/-- An appender that has not received anything. -/
def RollingState.start (dir : Directory) (expire : ℕ) : RollingState := ⟨none, expire, dir, []⟩

/-- The times of the records. -/
def timestamps : List RollingEvent → List ℕ
  | [] => []
  | .record timestamp _ _ :: es => timestamp.toNat :: timestamps es
  | .writeError _ :: es => timestamps es

/-- Every file received records of one local day only. -/
def OneDayPerFile (z : ZoneOffset) (st : RollingState) : Prop :=
  ∀ f t t', (f, t) ∈ st.received → (f, t') ∈ st.received → localDay z t = localDay z t'

/-- What has to hold when a record arrives. A record that stays in the open file is not of the very time at
which the file expires, if this is a midnight and the file holds an earlier record; and it is not of 1970 or
later by local time, if the file holds a record from before. If no file is open, the one that is taken up
again last received a record of the same day. -/
def OneDayStep (cfg : FileConfig) (z : ZoneOffset) (st : RollingState) : RollingEvent → Prop
  | .record timestamp fileSize o =>
    (∀ f, st.file = some f → needCreateNewFile cfg st timestamp.toNat fileSize = false →
      ¬(timestamp.toNat = st.expire ∧ (st.expire + z.diffToGmtMs) % msPerDay = 0 ∧
        ∃ t < timestamp.toNat, (f, t) ∈ st.received) ∧
      ¬(0 ≤ timestamp.toNat + z.diffToGmtMs ∧ ∃ t, (f, t) ∈ st.received ∧ t + z.diffToGmtMs < 0)) ∧
    (st.file = none → ∀ f dir t, openNewIndexedFileByName cfg o false st.dir = some (some f, dir) →
      (st.received.filter (·.1 = f)).getLast? = some (f, t) →
        localDay z t = localDay z timestamp.toNat)
  | .writeError _ => True

/-! ## The time at which a file expires -/

theorem ZoneOffset.diffToGmtMs_mem (z : ZoneOffset) :
    -46740000 ≤ z.diffToGmtMs ∧ z.diffToGmtMs ≤ 53940000 := by
  obtain ⟨h1, h2⟩ := z.hours_mem
  have h := z.minutes_mem
  unfold diffToGmtMs
  split at h <;> omega

theorem toUInt64_eq (x : ℤ) : (toUInt64 x : ℤ) = x % 2 ^ 64 :=
  Int.toNat_of_nonneg (Int.emod_nonneg x (by decide))

/-- The end of the local day, as the numbers of 64 bits come out. -/
theorem expireTime_eq (z : ZoneOffset) (t : ℕ) : (expireTime z t : ℤ) =
    (((t + z.diffToGmtMs) % 2 ^ 64 - (t + z.diffToGmtMs) % 2 ^ 64 % 86400000 + 86400000) % 2 ^ 64 -
      z.diffToGmtMs) % 2 ^ 64 := by
  unfold expireTime
  simp only
  have hle := Nat.mod_le (toUInt64 (t + z.diffToGmtMs)) msPerDay
  rw [toUInt64_eq, Int.natCast_mod, Nat.cast_add, Nat.cast_sub hle, Int.natCast_mod, toUInt64_eq]
  rfl

/-- A file expires at the next midnight, or in the past, or, if it was opened before 1970, at some time of
the first day. -/
theorem expireTime_cases (z : ZoneOffset) {t : ℕ} (ht : t < 2 ^ 64) :
    (0 ≤ t + z.diffToGmtMs ∧ expireTime z t + z.diffToGmtMs = (localDay z t + 1) * msPerDay) ∨
      expireTime z t < t ∨ (t + z.diffToGmtMs < 0 ∧ expireTime z t + z.diffToGmtMs = 34448384) := by
  obtain ⟨h1, h2⟩ := z.diffToGmtMs_mem
  have hx := expireTime_eq z t
  rw [localDay, show (msPerDay : ℤ) = 86400000 from rfl]
  generalize expireTime z t = x at *
  generalize z.diffToGmtMs = d at *
  generalize hu : (t + d) % 2 ^ 64 = u at hx
  generalize he : (u - u % 86400000 + 86400000) % 2 ^ 64 = e at hx
  rcases lt_or_ge (t + d) 0 with hneg | hpos
  · right; right
    have hu' : u = t + d + 2 ^ 64 := by omega
    have hmod : u % 86400000 = 51951616 + (t + d) := by omega
    have he' : e = 34448384 := by omega
    omega
  · rcases lt_or_ge (t + d) (2 ^ 64) with hlt | hge
    · have hu' : u = t + d := by omega
      subst hu'
      have hdiv := Int.mul_ediv_add_emod (t + d) 86400000
      have hr := Int.emod_lt_of_pos (t + d) (show (0 : ℤ) < 86400000 by decide)
      have hr' := Int.emod_nonneg (t + d) (show (86400000 : ℤ) ≠ 0 by decide)
      generalize (t + d) / 86400000 = q at *
      generalize (t + d) % 86400000 = r at *
      omega
    · right; left
      have hu' : u = t + d - 2 ^ 64 := by omega
      have hmod : u % 86400000 = u := by omega
      have he' : e = 86400000 := by omega
      omega

/-- Two records of a file that expires when it does after an opening at `t₀` are of different days exactly
if the later one has the time at which the file expires and this is a midnight, or if they are on the two
sides of 1970. -/
theorem localDay_ne_iff (z : ZoneOffset) {t₀ r t : ℕ} (ht₀ : t₀ < 2 ^ 64) (hle₀ : t₀ ≤ t)
    (hexpire : t ≤ expireTime z t₀) (hle : r ≤ t) (hr : t₀ ≤ r ∨ localDay z r = localDay z t₀) :
    localDay z r ≠ localDay z t ↔
      (t = expireTime z t₀ ∧ (expireTime z t₀ + z.diffToGmtMs) % msPerDay = 0 ∧ r < t) ∨
        (0 ≤ t + z.diffToGmtMs ∧ r + z.diffToGmtMs < 0) := by
  obtain ⟨h1, -⟩ := z.diffToGmtMs_mem
  have hcases := expireTime_cases z ht₀
  unfold localDay at *
  rw [show (msPerDay : ℤ) = 86400000 from rfl] at *
  generalize expireTime z t₀ = x at *
  generalize z.diffToGmtMs = d at *
  rcases hcases with ⟨hpos, hx⟩ | hx | ⟨hneg, hx⟩ <;> constructor <;> intro h <;> omega

/-! ## What a step does -/

section Steps

variable {cfg : FileConfig} {z : ZoneOffset} {st st' : RollingState}

/-- What `refresh_file_handle` does: nothing, or it opens a file with a new time of expiry. -/
theorem refreshFileHandle_spec (cfg : FileConfig) (z : ZoneOffset) (st : RollingState) (t fileSize : ℕ)
    (o : Opening) : ∃ st', refreshFileHandle cfg z st t fileSize o = some st' ∧
      st'.received = st.received ∧ st.dir.next ≤ st'.dir.next ∧
      (needCreateNewFile cfg st t fileSize = false → st' = st) ∧
      (needCreateNewFile cfg st t fileSize = true →
        openNewIndexedFileByName cfg o st.file.isSome st.dir = some (st'.file, st'.dir) ∧
        st'.expire = expireTime z t ∧
        ∀ f, st'.file = some f → FreshOr (st.file = none) st.dir st'.dir f) := by
  unfold refreshFileHandle
  cases hneed : needCreateNewFile cfg st t fileSize with
  | false => exact ⟨st, rfl, rfl, le_refl _, fun _ => rfl, by simp⟩
  | true =>
    obtain ⟨file, dir', hopen, hnext, hfile⟩ :=
      openNewIndexedFileByName_spec cfg o st.file.isSome st.dir
    refine ⟨{ st with file := file, expire := expireTime z t, dir := dir' },
      by rw [if_pos rfl, hopen]; rfl, rfl, hnext, by simp, fun _ => ⟨hopen, rfl, fun f hf => ?_⟩⟩
    exact (hfile f hf).imp_right fun h => ⟨by simpa using h.1, h.2⟩

theorem mem_received_receive {t : ℕ} {r : ℕ × ℕ} : r ∈ (st.receive t).received ↔
    r ∈ st.received ∨ (st.file = some r.1 ∧ r.2 = t) := by
  unfold RollingState.receive
  cases st.file with
  | none => simp
  | some f =>
    simp only [List.mem_append, List.mem_singleton, Prod.ext_iff, Option.some.injEq]
    rw [eq_comm (a := f)]

@[simp] theorem receive_dir (st : RollingState) (t : ℕ) : (st.receive t).dir = st.dir := by
  unfold RollingState.receive
  split <;> rfl

@[simp] theorem receive_file (st : RollingState) (t : ℕ) : (st.receive t).file = st.file := by
  unfold RollingState.receive
  split <;> simp_all

@[simp] theorem receive_expire (st : RollingState) (t : ℕ) : (st.receive t).expire = st.expire := by
  unfold RollingState.receive
  split <;> rfl

/-- A record keeps the files to one day if its own file does. -/
theorem oneDayPerFile_receive {t : ℕ} : OneDayPerFile z (st.receive t) ↔ OneDayPerFile z st ∧
    ∀ f, st.file = some f → ∀ r, (f, r) ∈ st.received → localDay z r = localDay z t := by
  unfold OneDayPerFile
  simp only [mem_received_receive]
  constructor
  · exact fun h => ⟨fun f a b ha hb => h f a b (Or.inl ha) (Or.inl hb),
      fun f hf r hr => h f r t (Or.inl hr) (Or.inr ⟨hf, rfl⟩)⟩
  · rintro ⟨hold, hnew⟩ f a b (ha | ⟨hf, rfl⟩) (hb | ⟨hf', rfl⟩)
    · exact hold f a b ha hb
    · exact hnew f hf' a ha
    · exact (hnew f hf b hb).symm
    · rfl

/-- No event takes a received record back. -/
theorem exists_rollingStep (cfg : FileConfig) (z : ZoneOffset) (st : RollingState) (e : RollingEvent) :
    ∃ st', rollingStep cfg z st e = some st' ∧ (OneDayPerFile z st' → OneDayPerFile z st) := by
  cases e with
  | record t fileSize o =>
    obtain ⟨st', hrefresh, hreceived, -⟩ := refreshFileHandle_spec cfg z st t.toNat fileSize o
    refine ⟨st'.receive t.toNat, by rw [rollingStep, hrefresh]; rfl, fun h => ?_⟩
    have := (oneDayPerFile_receive.1 h).1
    rwa [OneDayPerFile, hreceived] at this
  | writeError o =>
    unfold rollingStep
    simp only
    split
    · obtain ⟨file, dir', hopen, -⟩ := openNewIndexedFileByName_spec cfg o true st.dir
      exact ⟨{ st with file := file, dir := dir' }, by rw [hopen]; rfl, id⟩
    · exact ⟨st, rfl, id⟩

/-- What relates the state to the records that are still to come: the files are known to the directory, the
records are in the past, and the time at which the open file expires is that of a time `t₀` in the past; the
records of the open file are no earlier, or of the day of `t₀`. -/
structure RollingInv (z : ZoneOffset) (st : RollingState) (es : List RollingEvent) : Prop where
  sorted : (timestamps es).Pairwise (· ≤ ·)
  received_lt : ∀ r ∈ st.received, r.1 < st.dir.next
  received_le : ∀ r ∈ st.received, ∀ t ∈ timestamps es, r.2 ≤ t
  file_lt : ∀ f, st.file = some f → f < st.dir.next
  opened : ∀ f, st.file = some f → ∃ t₀ < 2 ^ 64, st.expire = expireTime z t₀ ∧
    (∀ t ∈ timestamps es, t₀ ≤ t) ∧ ∀ r, (f, r) ∈ st.received → t₀ ≤ r ∨ localDay z r = localDay z t₀

/-- The last record of a file is one of its records. -/
theorem mem_of_getLast? {f t : ℕ} (h : (st.received.filter (·.1 = f)).getLast? = some (f, t)) :
    (f, t) ∈ st.received :=
  (List.mem_filter.1 (List.mem_of_getLast? h)).1

theorem exists_getLast? {f r : ℕ} (h : (f, r) ∈ st.received) :
    ∃ t, (st.received.filter (·.1 = f)).getLast? = some (f, t) := by
  have hmem : (f, r) ∈ st.received.filter (·.1 = f) := List.mem_filter.2 ⟨h, decide_eq_true rfl⟩
  have hlast := List.getLast?_eq_some_getLast (List.ne_nil_of_mem hmem)
  have hfile := (List.mem_filter.1 (List.getLast_mem (List.ne_nil_of_mem hmem))).2
  generalize (st.received.filter (·.1 = f)).getLast _ = x at hlast hfile
  obtain ⟨f', t⟩ := x
  obtain rfl : f' = f := of_decide_eq_true hfile
  exact ⟨t, hlast⟩

variable {ts : UInt64} {fileSize : ℕ} {o : Opening} {es : List RollingEvent}

/-- A record that stays in the open file. -/
theorem oneDayStep_of_stays (hroll : cfg.enableRollingLogFile = true)
    (hI : RollingInv z st (.record ts fileSize o :: es)) {f : ℕ} (hfile : st.file = some f)
    (hneed : needCreateNewFile cfg st ts.toNat fileSize = false) :
    (∀ r, (f, r) ∈ st.received → localDay z r = localDay z ts.toNat) ↔
      OneDayStep cfg z st (.record ts fileSize o) := by
  obtain ⟨t₀, ht₀, hexpire, hpast, hrecords⟩ := hI.opened f hfile
  have hstay : ts.toNat ≤ st.expire := by
    simp only [needCreateNewFile, hroll, Bool.true_and, Bool.or_eq_false_iff, decide_eq_false_iff_not,
      not_lt] at hneed
    exact hneed.2
  have hday := fun r (hr : (f, r) ∈ st.received) => localDay_ne_iff z ht₀
    (hpast _ List.mem_cons_self) (hexpire ▸ hstay)
    (hI.received_le _ hr _ List.mem_cons_self) (hrecords r hr)
  rw [← hexpire] at hday
  constructor
  · intro h
    refine ⟨fun f' hf' _ => ?_, fun hnone => absurd (hfile.symm.trans hnone) (Option.some_ne_none f)⟩
    obtain rfl := Option.some.inj (hfile.symm.trans hf')
    constructor
    · rintro ⟨heq, hmid, r, hlt, hr⟩
      exact (hday r hr).2 (Or.inl ⟨heq, hmid, hlt⟩) (h r hr)
    · rintro ⟨hpos, r, hr, hneg⟩
      exact (hday r hr).2 (Or.inr ⟨hpos, hneg⟩) (h r hr)
  · intro h r hr
    obtain ⟨h1, h2⟩ := h.1 f hfile hneed
    by_contra hne
    rcases (hday r hr).1 hne with ⟨heq, hmid, hlt⟩ | ⟨hpos, hneg⟩
    · exact h1 ⟨heq, hmid, r, hlt, hr⟩
    · exact h2 ⟨hpos, r, hr, hneg⟩

/-- A record that opens a file. -/
theorem oneDayStep_of_opens (hP : OneDayPerFile z st)
    (hreceived : ∀ r ∈ st.received, r.1 < st.dir.next)
    (hneed : needCreateNewFile cfg st ts.toNat fileSize = true)
    (hopen : openNewIndexedFileByName cfg o st.file.isSome st.dir = some (st'.file, st'.dir))
    (hfresh : ∀ f, st'.file = some f → FreshOr (st.file = none) st.dir st'.dir f) :
    (∀ f, st'.file = some f → ∀ r, (f, r) ∈ st.received → localDay z r = localDay z ts.toNat) ↔
      OneDayStep cfg z st (.record ts fileSize o) := by
  have hstays : ∀ f, st.file = some f → needCreateNewFile cfg st ts.toNat fileSize = false →
      ¬(ts.toNat = st.expire ∧ (st.expire + z.diffToGmtMs) % msPerDay = 0 ∧
        ∃ t < ts.toNat, (f, t) ∈ st.received) ∧
      ¬(0 ≤ ts.toNat + z.diffToGmtMs ∧ ∃ t, (f, t) ∈ st.received ∧ t + z.diffToGmtMs < 0) := by
    intro f _ hf
    rw [hneed] at hf
    cases hf
  constructor
  · refine fun h => ⟨hstays, fun hnone f dir t hf hlast => ?_⟩
    rw [hnone] at hopen
    have heq := hopen.symm.trans hf
    exact h f (congrArg Prod.fst (Option.some.inj heq)) t (mem_of_getLast? hlast)
  · rintro ⟨-, h⟩ f hf r hr
    rcases hfresh f hf with ⟨hge, -⟩ | ⟨hnone, -⟩
    · exact absurd (hreceived _ hr) (not_lt.2 hge)
    · rw [hnone, hf] at hopen
      obtain ⟨t, hlast⟩ := exists_getLast? hr
      exact (hP f r t hr (mem_of_getLast? hlast)).trans (h hnone f _ t hopen hlast)

/-- The files that are open after `refresh_file_handle` are known to the directory. -/
theorem file_lt_of_refresh (hI : RollingInv z st (.record ts fileSize o :: es))
    (hstays : needCreateNewFile cfg st ts.toNat fileSize = false → st' = st)
    (hfresh : needCreateNewFile cfg st ts.toNat fileSize = true →
      ∀ f, st'.file = some f → FreshOr (st.file = none) st.dir st'.dir f)
    (hnext : st.dir.next ≤ st'.dir.next) {f : ℕ} (hf : st'.file = some f) : f < st'.dir.next := by
  cases hneed : needCreateNewFile cfg st ts.toNat fileSize with
  | false =>
    obtain rfl := hstays hneed
    exact hI.file_lt f hf
  | true =>
    rcases hfresh hneed f hf with ⟨-, h⟩ | ⟨-, h⟩
    · exact h
    · exact h.trans_le hnext

/-- **One event**: the condition is exact, and what holds of the state and the records to come goes on to
hold. -/
theorem rollingStep_spec (hroll : cfg.enableRollingLogFile = true) {e : RollingEvent}
    (hI : RollingInv z st (e :: es)) (hP : OneDayPerFile z st) (hstep : rollingStep cfg z st e = some st') :
    (OneDayPerFile z st' ↔ OneDayStep cfg z st e) ∧ (OneDayPerFile z st' → RollingInv z st' es) := by
  cases e with
  | record ts fileSize o =>
    obtain ⟨st₁, hrefresh, hreceived, hnext, hstays, hopens⟩ :=
      refreshFileHandle_spec cfg z st ts.toNat fileSize o
    rw [rollingStep, hrefresh] at hstep
    obtain rfl := Option.some.inj hstep
    have hfile_lt := fun f (hf : st₁.file = some f) =>
      file_lt_of_refresh hI hstays (fun h => (hopens h).2.2) hnext hf
    have hP₁ : OneDayPerFile z st₁ := by rwa [OneDayPerFile, hreceived]
    have hiff : OneDayPerFile z (st₁.receive ts.toNat) ↔
        ∀ f, st₁.file = some f → ∀ r, (f, r) ∈ st.received → localDay z r = localDay z ts.toNat := by
      rw [oneDayPerFile_receive, hreceived, and_iff_right hP₁]
    have hsorted : (ts.toNat :: timestamps es).Pairwise (· ≤ ·) := hI.sorted
    rw [List.pairwise_cons] at hsorted
    refine ⟨?_, fun hP' => ⟨hsorted.2, fun r hr => ?_, fun r hr => ?_, fun f hf => ?_, fun f hf => ?_⟩⟩
    · rw [hiff]
      cases hneed : needCreateNewFile cfg st ts.toNat fileSize with
      | false =>
        obtain rfl := hstays hneed
        obtain ⟨f, hf⟩ : ∃ f, st₁.file = some f := by
          rw [← Option.isSome_iff_exists, ← Option.isNone_eq_false_iff]
          simp only [needCreateNewFile, Bool.or_eq_false_iff] at hneed
          exact hneed.1.1
        refine Iff.trans ⟨fun h => h f hf, fun h f' hf' => ?_⟩ (oneDayStep_of_stays hroll hI hf hneed)
        obtain rfl := Option.some.inj (hf.symm.trans hf')
        exact h
      | true =>
        obtain ⟨hopen, -, hfresh⟩ := hopens hneed
        exact oneDayStep_of_opens hP hI.received_lt hneed hopen hfresh
    · rw [receive_dir]
      rcases mem_received_receive.1 hr with hr | ⟨hf, -⟩
      · exact (hI.received_lt r (hreceived ▸ hr)).trans_le hnext
      · exact hfile_lt _ hf
    · intro t ht
      rcases mem_received_receive.1 hr with hr | ⟨-, hr⟩
      · exact hI.received_le r (hreceived ▸ hr) t (List.mem_cons_of_mem _ ht)
      · exact hr ▸ hsorted.1 t ht
    · rw [receive_dir]
      rw [receive_file] at hf
      exact hfile_lt f hf
    · rw [receive_file] at hf
      rw [receive_expire]
      cases hneed : needCreateNewFile cfg st ts.toNat fileSize with
      | false =>
        obtain rfl := hstays hneed
        obtain ⟨t₀, ht₀, hexpire, hpast, hrecords⟩ := hI.opened f hf
        refine ⟨t₀, ht₀, hexpire, fun t ht => hpast t (List.mem_cons_of_mem _ ht), fun r hr => ?_⟩
        rcases mem_received_receive.1 hr with hr | ⟨-, rfl⟩
        · exact hrecords r hr
        · exact Or.inl (hpast _ List.mem_cons_self)
      | true =>
        refine ⟨ts.toNat, ts.toNat_lt, (hopens hneed).2.1, hsorted.1, fun r hr => ?_⟩
        rcases mem_received_receive.1 hr with hr | ⟨-, rfl⟩
        · exact Or.inr (hiff.1 hP' f hf r (hreceived ▸ hr))
        · exact Or.inl (le_refl _)
  | writeError o =>
    have hI' : RollingInv z st es := ⟨hI.sorted, hI.received_lt, hI.received_le, hI.file_lt, hI.opened⟩
    rw [rollingStep] at hstep
    split at hstep
    · rename_i hfile
      obtain ⟨file, dir', hopen, hnext, hfresh⟩ := openNewIndexedFileByName_spec cfg o true st.dir
      rw [hopen] at hstep
      obtain rfl := Option.some.inj hstep
      refine ⟨iff_of_true hP trivial, fun _ => ⟨hI.sorted, fun r hr => ?_, hI.received_le, fun f hf => ?_,
        fun f hf => ?_⟩⟩
      · exact (hI.received_lt r hr).trans_le hnext
      · rcases hfresh f hf with ⟨-, h⟩ | ⟨h, -⟩
        · exact h
        · cases h
      · obtain ⟨f₀, hf₀⟩ := Option.isSome_iff_exists.1 hfile
        obtain ⟨t₀, ht₀, hexpire, hpast, -⟩ := hI.opened f₀ hf₀
        refine ⟨t₀, ht₀, hexpire, hpast, fun r hr => ?_⟩
        rcases hfresh f hf with ⟨hge, -⟩ | ⟨h, -⟩
        · exact absurd (hI.received_lt _ hr) (not_lt.2 hge)
        · cases h
    · obtain rfl := Option.some.inj hstep
      exact ⟨iff_of_true hP trivial, fun _ => hI'⟩

end Steps

/-! ## One day per file -/

/-- **When the files of an appender hold one local day each.** With rolling enabled and a fixed offset, for
every run of records with times that do not decrease, with any sizes of the files, any clock and any
failures to open or to write: no file receives records of two days exactly if every record that arrives
meets `OneDayStep`. -/
theorem rolling_one_day_iff {cfg : FileConfig} (hroll : cfg.enableRollingLogFile = true) (z : ZoneOffset)
    (dir : Directory) (expire : ℕ) {es : List RollingEvent} (hsorted : (timestamps es).Pairwise (· ≤ ·)) :
    ∃ st, run (rollingStep cfg z) (.start dir expire) es = some st ∧
      (OneDayPerFile z st ↔ Admits (rollingStep cfg z) (OneDayStep cfg z) (.start dir expire) es) := by
  refine run_iff_admits (I := RollingInv z) (exists_rollingStep cfg z)
    (fun _ _ _ _ hI hP hstep => rollingStep_spec hroll hI hP hstep)
    ⟨hsorted, by rintro r ⟨⟩, by rintro r ⟨⟩, by rintro f ⟨⟩, by rintro f ⟨⟩⟩ ?_
  rintro f t t' ⟨⟩

theorem rolling_one_day_iff_utc :
    ∃ st, run (rollingStep ⟨['a'], ['.'], false, 100, true⟩ .utc) (.start .empty 0)
        [.record 1735689599000 0 Opening.plain, .record 1735689599999 200 Opening.plain] = some st ∧
      (OneDayPerFile .utc st ↔ Admits (rollingStep ⟨['a'], ['.'], false, 100, true⟩ .utc)
        (OneDayStep ⟨['a'], ['.'], false, 100, true⟩ .utc) (.start .empty 0)
        [.record 1735689599000 0 Opening.plain, .record 1735689599999 200 Opening.plain]) :=
  rolling_one_day_iff rfl .utc .empty 0 (by decide)

/-- A record of the last millisecond of a day and one of the first of the next go into one file. -/
theorem rolling_two_days : ¬∀ (cfg : FileConfig) (z : ZoneOffset) (dir : Directory) (expire : ℕ)
    (es : List RollingEvent) (st : RollingState), cfg.enableRollingLogFile = true →
      (timestamps es).Pairwise (· ≤ ·) → run (rollingStep cfg z) (.start dir expire) es = some st →
        OneDayPerFile z st := by
  intro h
  have hreceived : (run (rollingStep ⟨['a'], ['.'], false, 0, true⟩ .utc) (.start .empty 0)
      [.record 1735689599999 0 Opening.plain, .record 1735689600000 0 Opening.plain]).map
        RollingState.received = some [(0, 1735689599999), (0, 1735689600000)] := by
    decide +kernel
  obtain ⟨st, hrun, hst⟩ := Option.map_eq_some_iff.1 hreceived
  have hday := h _ .utc .empty 0 _ st rfl (by decide) hrun 0 1735689599999 1735689600000
    (by rw [hst]; decide) (by rw [hst]; decide)
  exact absurd hday (by decide +kernel)

end QLog.Appender
