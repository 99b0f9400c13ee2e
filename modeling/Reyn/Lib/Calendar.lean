import Mathlib

/-! # Dates and clock readings

Ordinals of the proleptic Gregorian calendar, a local clock as an offset to the POSIX
time, and the ISO text of a reading in whole seconds. The offset of the zone is a
function of the time; it is less than a day.
-/
namespace Py

def isLeap (y : ℕ) : Bool := y % 4 == 0 && (y % 100 != 0 || y % 400 == 0)

def daysBeforeYear (y : ℕ) : ℕ := (y - 1) * 365 + (y - 1) / 4 - (y - 1) / 100 + (y - 1) / 400

def monthLengths (leap : Bool) : List ℕ := [31,if leap then 29 else 28,31,30,31,30,31,31,30,31,30,31]

def daysBeforeMonth (lengths : List ℕ) (m : ℕ) : ℕ := (lengths.take (m - 1)).sum

structure Date where
  year : ℕ
  month : ℕ
  day : ℕ
  deriving DecidableEq

/-- The ordinal of a date; the first of January of year one is day one. -/
def ymd2ord (d : Date) : ℕ := daysBeforeYear d.year + daysBeforeMonth (monthLengths (isLeap d.year)) d.month + d.day

/-- The month and the day of the month, from the days of the year before it. -/
def monthDay : List ℕ → ℕ → ℕ × ℕ
  | [],n => (1,n + 1)
  | l :: rest,n => if n < l then (1,n + 1) else ((monthDay rest (n - l)).1 + 1,(monthDay rest (n - l)).2)

/-- The year of a day and the days of the year before it. -/
def yearDay (n : ℕ) : ℕ × ℕ :=
  let n := n - 1
  let n400 := n / 146097
  let n := n % 146097
  let n100 := n / 36524
  let n := n % 36524
  let n4 := n / 1461
  let n := n % 1461
  let n1 := n / 365
  let n := n % 365
  let year := n400 * 400 + n100 * 100 + n4 * 4 + n1 + 1
  -- the last day of a leap year, or of a period of four centuries
  if n1 = 4 ∨ n100 = 4 then (year - 1,365) else (year,n)

def ord2ymd (n : ℕ) : Date :=
  let y := (yearDay n).1
  let md := monthDay (monthLengths (isLeap y)) (yearDay n).2
  ⟨y,md.1,md.2⟩

/-- A reading of the local clock, with the seconds east of UTC. -/
structure LocalTime where
  date : Date
  hour : ℕ
  minute : ℕ
  second : ℕ
  gmtoff : ℤ
  deriving DecidableEq

/-- The ordinal of the first day of the POSIX time. -/
def epochOrdinal : ℤ := 719163

def monthLength (y m : ℕ) : ℕ := (monthLengths (isLeap y)).getD (m - 1) 0

def localtime (zone : ℤ → ℤ) (t : ℤ) : LocalTime :=
  let s := t + zone t
  let seconds := (s % 86400).toNat
  ⟨ord2ymd (s / 86400 + epochOrdinal).toNat,seconds / 3600,seconds % 3600 / 60,seconds % 60,zone t⟩

/-- `f"{n:0{width}d}"` -/
def pad (width n : ℕ) : List Char := List.replicate (width - (Nat.toDigits 10 n).length) '0' ++ Nat.toDigits 10 n

def digits (cs : List Char) : Option ℕ := if cs.all Char.isDigit then some (Nat.ofDigitChars 10 cs 0) else none

def isoDate (d : Date) : List Char := pad 4 d.year ++ '-' :: (pad 2 d.month ++ '-' :: pad 2 d.day)

/-- `2026-05-02T10:23:00+09:00`; the seconds of an offset are not written. -/
def isoformat (t : LocalTime) : List Char :=
  let sign := if 0 ≤ t.gmtoff then '+' else '-'
  let offset := t.gmtoff.natAbs
  isoDate t.date ++ 'T' :: (pad 2 t.hour ++ ':' :: (pad 2 t.minute ++ ':' :: (pad 2 t.second ++
    sign :: (pad 2 (offset / 3600) ++ ':' :: pad 2 (offset % 3600 / 60)))))

def signed (sign : Char) (n : ℕ) : Option ℤ :=
  if sign = '+' then some n else if sign = '-' then some (-n) else none

/-- A field of the date or of the time exists. -/
def LocalTime.valid (t : LocalTime) : Bool :=
  decide (1 ≤ t.date.year ∧ 1 ≤ t.date.month ∧ 1 ≤ t.date.day ∧ t.date.day ≤ monthLength t.date.year t.date.month ∧
    t.hour < 24 ∧ t.minute < 60 ∧ t.second < 60 ∧ t.gmtoff.natAbs < 86400)

/-- `datetime.fromisoformat` for a text in that form. -/
def fromisoformat : List Char → Option LocalTime
  | [y₁,y₂,y₃,y₄,'-',m₁,m₂,'-',d₁,d₂,'T',h₁,h₂,':',i₁,i₂,':',s₁,s₂,sign,o₁,o₂,':',p₁,p₂] => do
    let date := ⟨← digits [y₁,y₂,y₃,y₄],← digits [m₁,m₂],← digits [d₁,d₂]⟩
    let offset := (← digits [o₁,o₂]) * 3600 + (← digits [p₁,p₂]) * 60
    let t : LocalTime := ⟨date,← digits [h₁,h₂],← digits [i₁,i₂],← digits [s₁,s₂],← signed sign offset⟩
    if t.valid then some t else none
  | _ => none

def timestamp (t : LocalTime) : ℤ :=
  ((ymd2ord t.date : ℤ) - epochOrdinal) * 86400 + (t.hour * 3600 + t.minute * 60 + t.second : ℕ) - t.gmtoff

section Dates

theorem daysBeforeYear_cycle (a : ℕ) {b c d : ℕ} (hb : b ≤ 3) (hc : c ≤ 24) (hd : d ≤ 3) :
    daysBeforeYear (a * 400 + b * 100 + c * 4 + d + 1) = a * 146097 + b * 36524 + c * 1461 + d * 365 := by
  unfold daysBeforeYear
  have h4 : (a * 400 + b * 100 + c * 4 + d + 1 - 1) / 4 = a * 100 + b * 25 + c := by omega
  have h100 : (a * 400 + b * 100 + c * 4 + d + 1 - 1) / 100 = a * 4 + b := by omega
  have h400 : (a * 400 + b * 100 + c * 4 + d + 1 - 1) / 400 = a := by omega
  rw [h4,h100,h400]
  omega

theorem isLeap_cycle (a : ℕ) {b c d : ℕ} (hb : b ≤ 3) (hc : c ≤ 24) (hd : d ≤ 3) :
    isLeap (a * 400 + b * 100 + c * 4 + d + 1) = (d == 3 && (c != 24 || b == 3)) := by
  unfold isLeap
  rw [Bool.eq_iff_iff]
  simp only [Bool.and_eq_true,Bool.or_eq_true,beq_iff_eq,bne_iff_ne]
  omega

theorem yearDay_spec {n : ℕ} (h : 1 ≤ n) : 1 ≤ (yearDay n).1 ∧ daysBeforeYear (yearDay n).1 + (yearDay n).2 + 1 = n ∧
    (yearDay n).2 < (monthLengths (isLeap (yearDay n).1)).sum := by
  have hsum : ∀ leap, (monthLengths leap).sum = if leap then 366 else 365 := by decide
  rw [hsum]
  unfold yearDay
  obtain ⟨k,rfl⟩ : ∃ k, n = k + 1 := ⟨n - 1,by omega⟩
  simp only [Nat.add_sub_cancel]
  generalize ha : k / 146097 = a
  generalize hr1 : k % 146097 = r1
  generalize hb : r1 / 36524 = b
  generalize hr2 : r1 % 36524 = r2
  generalize hc : r2 / 1461 = c
  generalize hr3 : r2 % 1461 = r3
  generalize hd : r3 / 365 = d
  generalize hr4 : r3 % 365 = r4
  have hk : k = a * 146097 + r1 := by omega
  have hr1' : r1 = b * 36524 + r2 := by omega
  have hr2' : r2 = c * 1461 + r3 := by omega
  have hr3' : r3 = d * 365 + r4 := by omega
  have hb4 : b ≤ 4 := by omega
  have hc24 : c ≤ 24 := by omega
  have hd4 : d ≤ 4 := by omega
  split
  · rename_i hlast
    simp only
    -- the last day counts to the year that ends with it
    by_cases hb' : b = 4
    · have hyear : a * 400 + b * 100 + c * 4 + d = a * 400 + 3 * 100 + 24 * 4 + 3 + 1 := by omega
      have hbefore := daysBeforeYear_cycle a (b := 3) (c := 24) (d := 3) le_rfl le_rfl le_rfl
      have hleap := isLeap_cycle a (b := 3) (c := 24) (d := 3) le_rfl le_rfl le_rfl
      have hk' : k = a * 146097 + 146096 := by omega
      rw [hyear,hbefore,hleap,hk']
      exact ⟨by omega,by ring,by decide⟩
    · have hd' : d = 4 := hlast.resolve_right hb'
      have hr4' : r4 = 0 := by omega
      have hk' : k = a * 146097 + b * 36524 + c * 1461 + 1460 := by
        rw [hk,hr1',hr2',hr3',hd',hr4']
        ring
      have hyear : a * 400 + b * 100 + c * 4 + d = a * 400 + b * 100 + c * 4 + 3 + 1 := by omega
      have hb3 : b ≤ 3 := by omega
      have hcentury : c ≠ 24 ∨ b = 3 := by omega
      have hbefore := daysBeforeYear_cycle a hb3 hc24 (le_refl 3)
      have hleap : isLeap (a * 400 + b * 100 + c * 4 + 3 + 1) = true := by
        rw [isLeap_cycle a hb3 hc24 (le_refl 3)]
        simpa [bne_iff_ne] using hcentury
      rw [hyear,hbefore,hleap,hk']
      exact ⟨by omega,by ring,by simp⟩
  · rename_i hlast
    simp only
    have hb3 : b ≤ 3 := by omega
    have hd3 : d ≤ 3 := by omega
    rw [daysBeforeYear_cycle a hb3 hc24 hd3,isLeap_cycle a hb3 hc24 hd3]
    refine ⟨by omega,by omega,?_⟩
    split <;> omega

theorem monthDay_spec {lengths : List ℕ} {n : ℕ} (h : n < lengths.sum) :
    1 ≤ (monthDay lengths n).1 ∧ (monthDay lengths n).1 ≤ lengths.length ∧ 1 ≤ (monthDay lengths n).2 ∧
      (monthDay lengths n).2 ≤ lengths.getD ((monthDay lengths n).1 - 1) 0 ∧
      daysBeforeMonth lengths (monthDay lengths n).1 + (monthDay lengths n).2 = n + 1 := by
  induction lengths generalizing n with
  | nil => cases h
  | cons l rest ih =>
    rw [List.sum_cons] at h
    by_cases hn : n < l
    · simp only [monthDay,if_pos hn]
      exact ⟨le_rfl,by simp,by omega,by simpa using Nat.succ_le_of_lt hn,by simp [daysBeforeMonth]⟩
    · obtain ⟨hlow,hhigh,hday,hle,hsum⟩ := ih (n := n - l) (by omega)
      simp only [monthDay,if_neg hn]
      obtain ⟨m,hm⟩ : ∃ m, (monthDay rest (n - l)).1 = m + 1 := ⟨(monthDay rest (n - l)).1 - 1,by omega⟩
      rw [hm,Nat.add_sub_cancel] at hle
      rw [daysBeforeMonth,hm,Nat.add_sub_cancel] at hsum
      refine ⟨by omega,by simpa using hhigh,hday,?_,?_⟩
      · rw [hm,Nat.add_sub_cancel,List.getD_cons_succ]
        exact hle
      · rw [daysBeforeMonth,hm,Nat.add_sub_cancel,List.take_succ_cons,List.sum_cons]
        omega

theorem ymd2ord_ord2ymd {n : ℕ} (h : 1 ≤ n) : ymd2ord (ord2ymd n) = n := by
  obtain ⟨-,hyear,hlt⟩ := yearDay_spec h
  obtain ⟨-,-,-,-,hmonth⟩ := monthDay_spec hlt
  simp only [ymd2ord,ord2ymd]
  omega

/-- An ordinal of the years up to 9999 has a date. -/
theorem ord2ymd_valid {n : ℕ} (h : 1 ≤ n) (hn : n ≤ 3652059) : 1 ≤ (ord2ymd n).year ∧ (ord2ymd n).year < 10000 ∧
    1 ≤ (ord2ymd n).month ∧ 1 ≤ (ord2ymd n).day ∧
      (ord2ymd n).day ≤ monthLength (ord2ymd n).year (ord2ymd n).month := by
  obtain ⟨hyear,hsum,hlt⟩ := yearDay_spec h
  obtain ⟨hmonth,-,hday,hle,-⟩ := monthDay_spec hlt
  refine ⟨hyear,?_,hmonth,hday,hle⟩
  by_contra hlate
  have hbefore : 3652059 ≤ daysBeforeYear (yearDay n).1 := by
    have hlate : 10000 ≤ (yearDay n).1 := Nat.le_of_not_lt hlate
    unfold daysBeforeYear
    omega
  omega

theorem timestamp_localtime (zone : ℤ → ℤ) {t : ℤ} (h : 1 ≤ (t + zone t) / 86400 + epochOrdinal) :
    timestamp (localtime zone t) = t := by
  have hord : ymd2ord (ord2ymd ((t + zone t) / 86400 + epochOrdinal).toNat) = ((t + zone t) / 86400 + epochOrdinal).toNat :=
    ymd2ord_ord2ymd (by omega)
  simp only [timestamp,localtime,hord]
  omega

/-- The readings of a clock in the years up to 9999. -/
theorem localtime_valid (zone : ℤ → ℤ) {t : ℤ} (hz : (zone t).natAbs < 86400)
    (h : 1 ≤ (t + zone t) / 86400 + epochOrdinal) (ht : (t + zone t) / 86400 + epochOrdinal ≤ 3652059) :
    (localtime zone t).valid = true ∧ (localtime zone t).date.year < 10000 := by
  obtain ⟨hyear,hlate,hmonth,hday,hle⟩ :=
    ord2ymd_valid (n := ((t + zone t) / 86400 + epochOrdinal).toNat) (by omega) (by omega)
  refine ⟨?_,hlate⟩
  rw [LocalTime.valid,decide_eq_true_eq]
  have hseconds : ((t + zone t) % 86400).toNat < 86400 := by omega
  refine ⟨hyear,hmonth,hday,hle,?_,?_,?_,hz⟩
  · show ((t + zone t) % 86400).toNat / 3600 < 24
    omega
  · show ((t + zone t) % 86400).toNat % 3600 / 60 < 60
    omega
  · show ((t + zone t) % 86400).toNat % 60 < 60
    omega

end Dates

section Texts

theorem digits_pad (width n : ℕ) : digits (pad width n) = some n := by
  have hall : (pad width n).all Char.isDigit = true := by
    rw [pad,List.all_append,Bool.and_eq_true]
    constructor
    · rw [List.all_replicate]
      simp
    · rw [List.all_eq_true]
      intro c hc
      exact Nat.isDigit_of_mem_toDigits (by decide) (by decide) hc
  rw [digits,if_pos hall,pad,Nat.ofDigitChars_append,Nat.ofDigitChars_replicate_zero,Nat.mul_zero,
    Nat.ofDigitChars_ten_toDigits]

theorem length_pad {width n : ℕ} (hw : 0 < width) (h : n < 10 ^ width) : (pad width n).length = width := by
  have hle : (Nat.toDigits 10 n).length ≤ width := Nat.toDigits_length 10 n width hw h
  rw [pad,List.length_append,List.length_replicate]
  omega

theorem pad_two {n : ℕ} (h : n < 100) : ∃ a b, pad 2 n = [a,b] ∧ digits [a,b] = some n := by
  have hlen : (pad 2 n).length = 2 := length_pad (by decide) h
  match hp : pad 2 n, hlen with
  | [a,b], _ => exact ⟨a,b,rfl,hp ▸ digits_pad 2 n⟩

theorem pad_four {n : ℕ} (h : n < 10000) : ∃ a b c d, pad 4 n = [a,b,c,d] ∧ digits [a,b,c,d] = some n := by
  have hlen : (pad 4 n).length = 4 := length_pad (by decide) h
  match hp : pad 4 n, hlen with
  | [a,b,c,d], _ => exact ⟨a,b,c,d,rfl,hp ▸ digits_pad 4 n⟩

theorem signed_sign (g : ℤ) : signed (if 0 ≤ g then '+' else '-') g.natAbs = some g := by
  unfold signed
  split
  · simp only [if_true,Option.some.injEq]
    omega
  · have hne : ('-' : Char) ≠ '+' := by decide
    rw [if_neg hne,if_pos rfl,Option.some.injEq]
    omega

/-- A month and a day that exist have two digits. -/
theorem LocalTime.valid_lt {t : LocalTime} (hv : t.valid = true) : t.date.month < 100 ∧ t.date.day < 100 := by
  simp only [LocalTime.valid,decide_eq_true_eq] at hv
  obtain ⟨-,-,hfirst,hlast,-⟩ := hv
  have hlen : ∀ leap m, (monthLengths leap).getD m 0 < 100 := by
    intro leap m
    by_cases hm : m < 12
    · revert leap m
      decide
    · have hnone : (monthLengths leap)[m]? = none := List.getElem?_eq_none (by simpa [monthLengths] using hm)
      rw [List.getD_eq_getElem?_getD,hnone]
      decide
  refine ⟨?_,Nat.lt_of_le_of_lt hlast (hlen _ _)⟩
  by_contra hlarge
  have hnone : (monthLengths (isLeap t.date.year))[t.date.month - 1]? = none :=
    List.getElem?_eq_none (by simp only [monthLengths,List.length_cons,List.length_nil]; omega)
  rw [monthLength,List.getD_eq_getElem?_getD,hnone] at hlast
  exact absurd (Nat.le_trans hfirst hlast) (by decide)

/-- The text up to the seconds has one length, and the sign of the offset follows. -/
theorem isoformat_text {t : LocalTime} (hv : t.valid = true) (hy : t.date.year < 10000) :
    ∃ front back, front.length = 19 ∧ isoformat t = front ++ (if 0 ≤ t.gmtoff then '+' else '-') :: back := by
  obtain ⟨hmonth,hday⟩ := LocalTime.valid_lt hv
  simp only [LocalTime.valid,decide_eq_true_eq] at hv
  obtain ⟨-,-,-,-,hhour,hminute,hsecond,-⟩ := hv
  refine ⟨isoDate t.date ++ 'T' :: (pad 2 t.hour ++ ':' :: (pad 2 t.minute ++ ':' :: pad 2 t.second)),
    pad 2 (t.gmtoff.natAbs / 3600) ++ ':' :: pad 2 (t.gmtoff.natAbs % 3600 / 60),?_,?_⟩
  · have hwidth : ∀ {n}, n < 100 → (pad 2 n).length = 2 := fun h => length_pad (by decide) h
    have hyear : (pad 4 t.date.year).length = 4 := length_pad (by decide) hy
    simp only [isoDate,List.length_append,List.length_cons,hyear,hwidth hmonth,hwidth hday,
      hwidth (show t.hour < 100 by omega),hwidth (show t.minute < 100 by omega),hwidth (show t.second < 100 by omega)]
  · simp only [isoformat,List.append_assoc,List.cons_append]

/-- A reading in a zone of whole minutes is read back. -/
theorem fromisoformat_isoformat {t : LocalTime} (hv : t.valid = true) (hy : t.date.year < 10000) (hz : t.gmtoff % 60 = 0) :
    fromisoformat (isoformat t) = some t := by
  obtain ⟨hmonth,hday⟩ := LocalTime.valid_lt hv
  have hvalid := hv
  simp only [LocalTime.valid,decide_eq_true_eq] at hvalid
  obtain ⟨-,-,-,-,hhour,hminute,hsecond,hoff⟩ := hvalid
  obtain ⟨y₁,y₂,y₃,y₄,hy,hy'⟩ := pad_four hy
  obtain ⟨m₁,m₂,hm,hm'⟩ := pad_two hmonth
  obtain ⟨d₁,d₂,hd,hd'⟩ := pad_two hday
  obtain ⟨h₁,h₂,hh,hh'⟩ := pad_two (show t.hour < 100 by omega)
  obtain ⟨i₁,i₂,hi,hi'⟩ := pad_two (show t.minute < 100 by omega)
  obtain ⟨s₁,s₂,hs,hs'⟩ := pad_two (show t.second < 100 by omega)
  obtain ⟨o₁,o₂,ho,ho'⟩ := pad_two (show t.gmtoff.natAbs / 3600 < 100 by omega)
  obtain ⟨p₁,p₂,hp,hp'⟩ := pad_two (show t.gmtoff.natAbs % 3600 / 60 < 100 by omega)
  have htext : isoformat t = [y₁,y₂,y₃,y₄,'-',m₁,m₂,'-',d₁,d₂,'T',h₁,h₂,':',i₁,i₂,':',s₁,s₂,
      if 0 ≤ t.gmtoff then '+' else '-',o₁,o₂,':',p₁,p₂] := by
    simp only [isoformat,isoDate,hy,hm,hd,hh,hi,hs,ho,hp,List.cons_append,List.nil_append]
  have hoffset : t.gmtoff.natAbs / 3600 * 3600 + t.gmtoff.natAbs % 3600 / 60 * 60 = t.gmtoff.natAbs := by omega
  rw [htext]
  simp only [fromisoformat,hy',hm',hd',hh',hi',hs',ho',hp',bind,Option.bind_some,hoffset,signed_sign,hv,if_true]

end Texts
end Py
