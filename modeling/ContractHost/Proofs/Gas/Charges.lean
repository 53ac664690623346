import ContractHost.Proofs.Gas.Tank

/-!
A tank over a whole run of charges.

The record of a run tells of each charge what was asked for and what was answered. Whatever the
charges are, the tank and the record agree: what was used is the sum of what the record admits, and
the tank counts as exhausted if the record has a refusal in it. One charge keeps that agreement
(`Account.Agrees.charge`), and so does a run; what the tank promises of a run, and of the charge
that comes next, follows (`charges_accounted`).
-/

namespace ContractHost.Gas

/-- A tank, and the charges that it has answered, the earliest first. -/
structure Account where
  tank : Tank
  record : List (UInt64 × Except Refusal Unit)

namespace Account

def new (limit meter : UInt64) : Account := ⟨.new limit meter, []⟩

def charge (a : Account) (units : UInt64) : Account :=
  ⟨(a.tank.charge units).1, a.record ++ [(units, (a.tank.charge units).2)]⟩

def chargeAll (a : Account) (charges : List UInt64) : Account := charges.foldl charge a

/-- What an entry of a record takes from the tank. -/
def granted : UInt64 × Except Refusal Unit → Nat
  | (units, .ok ()) => units.toNat
  | (_, .error _) => 0

def admitted : List (UInt64 × Except Refusal Unit) → Nat
  | [] => 0
  | e :: later => granted e + admitted later

theorem admitted_append (before later : List (UInt64 × Except Refusal Unit)) :
    admitted (before ++ later) = admitted before + admitted later := by
  induction before with
  | nil => exact (Nat.zero_add _).symm
  | cons e before ih =>
      simp only [List.cons_append, admitted, ih]
      omega

def Refused (record : List (UInt64 × Except Refusal Unit)) : Prop :=
  ∃ units refusal, (units, .error refusal) ∈ record

@[simp] theorem refused_append {before later : List (UInt64 × Except Refusal Unit)} :
    Refused (before ++ later) ↔ Refused before ∨ Refused later := by
  simp only [Refused, List.mem_append, exists_or]

@[simp] theorem refused_singleton {units : UInt64} {answer : Except Refusal Unit} :
    Refused [(units, answer)] ↔ ∃ refusal, answer = .error refusal := by
  simp [Refused, eq_comm]

variable {limit meter units : UInt64} {charges : List UInt64} {a : Account}

theorem charge_of_answer {t : Tank} {answer : Except Refusal Unit}
    (answered : a.tank.charge units = (t, answer)) :
    a.charge units = ⟨t, a.record ++ [(units, answer)]⟩ := by
  simp only [charge, answered]

theorem chargeAll_append (before later : List UInt64) :
    a.chargeAll (before ++ later) = (a.chargeAll before).chargeAll later :=
  List.foldl_append

/-- What was answered stays on record, and each charge of a run is added to it. -/
theorem record_chargeAll (a : Account) (charges : List UInt64) :
    ∃ later, (a.chargeAll charges).record = a.record ++ later ∧ later.map Prod.fst = charges := by
  induction charges generalizing a with
  | nil => exact ⟨[], (List.append_nil _).symm, rfl⟩
  | cons units charges ih =>
      obtain ⟨later, record, asked⟩ := ih (a.charge units)
      refine ⟨(units, (a.tank.charge units).2) :: later, ?_, ?_⟩
      · show ((a.charge units).chargeAll charges).record = _
        rw [record, charge, List.append_assoc]
        rfl
      · rw [List.map_cons, asked]

theorem asked_new (limit meter : UInt64) (charges : List UInt64) :
    ((new limit meter).chargeAll charges).record.map Prod.fst = charges := by
  obtain ⟨later, record, asked⟩ := record_chargeAll (new limit meter) charges
  rw [record, ← asked]
  rfl

/-- The tank and the record tell the same. -/
structure Agrees (limit meter : UInt64) (a : Account) : Prop where
  spent : a.tank.Spent limit (admitted a.record)
  meter_eq : a.tank.meter = meter
  exhausted_iff : a.tank.exhausted = true ↔ Refused a.record

namespace Agrees

theorem new (limit meter : UInt64) : (new limit meter).Agrees limit meter where
  spent := .new limit meter
  meter_eq := rfl
  exhausted_iff := by
    show false = true ↔ _
    simp [Refused, Account.new]

/-- A charge that is admitted is added on both sides, and one that is refused is remembered on
both. -/
theorem charge (agrees : a.Agrees limit meter) (units : UInt64) :
    (a.charge units).Agrees limit meter := by
  rcases answered : a.tank.charge units with ⟨t, refusal | ⟨⟩⟩
  · rw [charge_of_answer answered]
    obtain ⟨rfl, -, -⟩ := Tank.charge_eq_error answered
    refine ⟨?_, agrees.meter_eq, ?_⟩
    · rw [admitted_append]
      exact agrees.spent.charge_error answered
    · simp
  · rw [charge_of_answer answered]
    obtain ⟨rfl, -⟩ := Tank.charge_eq_ok answered
    refine ⟨?_, agrees.meter_eq, ?_⟩
    · rw [admitted_append]
      exact agrees.spent.charge_ok answered
    · simp [agrees.exhausted_iff]

theorem chargeAll (agrees : a.Agrees limit meter) (charges : List UInt64) :
    (a.chargeAll charges).Agrees limit meter := by
  induction charges generalizing a with
  | nil => exact agrees
  | cons units later ih => exact ih (agrees.charge units)

theorem remaining (agrees : a.Agrees limit meter) :
    a.tank.remaining.toNat + a.tank.used.toNat = limit.toNat := by
  have within := agrees.spent.within
  rw [UInt64.le_iff_toNat_le] at within
  rw [Tank.remaining, toNat_subSat, agrees.spent.limit_eq]
  omega

theorem used_of_finite (agrees : a.Agrees limit meter) (finite : limit ≠ greatest) :
    a.tank.used.toNat = admitted a.record := by
  -- What was used is within the limit, and so below the quantity at which counting stops.
  have within := agrees.spent.within
  have used := agrees.spent.used_eq
  have bound := limit.toNat_lt
  have below : limit.toNat ≠ greatest.toNat := mt UInt64.toNat_inj.1 finite
  rw [UInt64.le_iff_toNat_le] at within
  rw [toNat_greatest] at used below
  omega

theorem refused_iff (agrees : a.Agrees limit meter) (units : UInt64) :
    (∃ refusal, (a.tank.charge units).2 = .error refusal) ↔
      limit.toNat < min greatest.toNat (a.tank.used.toNat + units.toNat) := by
  have sum : (addSat a.tank.used units).toNat =
      min greatest.toNat (a.tank.used.toNat + units.toNat) := toNat_addSat _ _
  rw [← sum, ← agrees.spent.limit_eq, ← UInt64.lt_iff_toNat_lt]
  rcases answered : a.tank.charge units with ⟨t, refusal | ⟨⟩⟩
  · obtain ⟨-, -, beyond⟩ := Tank.charge_eq_error answered
    exact ⟨fun _ => beyond, fun _ => ⟨refusal, rfl⟩⟩
  · obtain ⟨rfl, within⟩ := Tank.charge_eq_ok answered
    constructor
    · rintro ⟨refusal, refused⟩
      cases refused
    · intro beyond
      exact absurd within (UInt64.not_le.2 beyond)

theorem refusal (agrees : a.Agrees limit meter) {refusal : Refusal}
    (refused : (a.tank.charge units).2 = .error refusal) :
    (a.tank.charge units).1.used = a.tank.used ∧ refusal.needed = units ∧
      refusal.remaining.toNat = limit.toNat - a.tank.used.toNat := by
  have left := agrees.remaining
  rcases answered : a.tank.charge units with ⟨t, answer⟩
  rw [answered] at refused
  obtain rfl : answer = .error refusal := refused
  obtain ⟨rfl, rfl, -⟩ := Tank.charge_eq_error answered
  refine ⟨rfl, rfl, ?_⟩
  show a.tank.remaining.toNat = _
  omega

theorem latched (agrees : a.Agrees limit meter) (later : List UInt64)
    (exhausted : a.tank.exhausted = true) : (a.chargeAll later).tank.exhausted = true := by
  obtain ⟨units, refusal, recorded⟩ := agrees.exhausted_iff.1 exhausted
  obtain ⟨others, record, -⟩ := record_chargeAll a later
  refine (agrees.chargeAll later).exhausted_iff.2 ⟨units, refusal, ?_⟩
  rw [record]
  exact List.mem_append_left _ recorded

theorem not_refused (agrees : a.Agrees limit meter) (ample : limit = greatest)
    (charges : List UInt64) (clean : ¬ Refused a.record) :
    ¬ Refused (a.chargeAll charges).record := by
  induction charges generalizing a with
  | nil => exact clean
  | cons units later ih =>
      apply ih (agrees.charge units)
      rw [charge_of_answer (Tank.charge_of_greatest (agrees.spent.limit_eq.trans ample) units)]
      simp [clean]

end Agrees

/-- What a tank tells once it has answered a run of charges, and how it answers the next one. -/
structure Accounted (limit meter : UInt64) (charges : List UInt64) (a : Account) : Prop where
  /-- Every charge of the run is on record. -/
  asked : a.record.map Prod.fst = charges
  /-- Each was answered by the tank that the charges before it have left. -/
  answered {before later : List UInt64} {units : UInt64} : charges = before ++ units :: later →
    a.record[before.length]? =
      some (units, (((new limit meter).chargeAll before).tank.charge units).2)
  used_eq : a.tank.used.toNat = min greatest.toNat (admitted a.record)
  within : a.tank.used ≤ limit
  limit_eq : a.tank.limit = limit
  meter_eq : a.tank.meter = meter
  remaining : a.tank.remaining.toNat + a.tank.used.toNat = limit.toNat
  exhausted_iff : a.tank.exhausted = true ↔ Refused a.record
  /-- A tank that is exhausted once is exhausted for good. -/
  latched (later : List UInt64) : a.tank.exhausted = true →
    (a.chargeAll later).tank.exhausted = true
  refused_iff (units : UInt64) : (∃ refusal, (a.tank.charge units).2 = .error refusal) ↔
    limit.toNat < min greatest.toNat (a.tank.used.toNat + units.toNat)
  refusal {units : UInt64} {refusal : Refusal} : (a.tank.charge units).2 = .error refusal →
    (a.tank.charge units).1.used = a.tank.used ∧ refusal.needed = units ∧
      refusal.remaining.toNat = limit.toNat - a.tank.used.toNat
  /-- Only the greatest limit lets the tank lose count. -/
  exact_of_finite : limit ≠ greatest → a.tank.used.toNat = admitted a.record
  /-- With the greatest limit nothing is refused. -/
  ample : limit = greatest → ¬ Refused a.record

theorem getElem?_record (before later : List UInt64) (units : UInt64) :
    ((new limit meter).chargeAll (before ++ units :: later)).record[before.length]? =
      some (units, (((new limit meter).chargeAll before).tank.charge units).2) := by
  have length := congrArg List.length (asked_new limit meter before)
  rw [List.length_map] at length
  rw [chargeAll_append, ← length]
  generalize (new limit meter).chargeAll before = a
  obtain ⟨others, record, -⟩ := record_chargeAll (a.charge units) later
  show ((a.charge units).chargeAll later).record[a.record.length]? = _
  rw [record, charge, List.append_assoc, List.getElem?_append_right (Nat.le_refl _)]
  simp

end Account

open Account in
/-- A tank keeps its account over any run of charges. What was used is the sum of what was admitted,
as far as the tank can count, and stays within the limit; a charge is refused exactly if it would
lead beyond the limit, the refusal tells what was asked for and what is left, and it takes nothing.
The tank is exhausted from the first refusal on, and neither the limit nor the meter ever changes. -/
theorem charges_accounted (limit meter : UInt64) (charges : List UInt64) :
    Accounted limit meter charges ((new limit meter).chargeAll charges) := by
  have agrees := (Agrees.new limit meter).chargeAll charges
  have clean : ¬ Refused (new limit meter).record := by simp [Refused, new]
  exact
    { asked := asked_new limit meter charges
      answered := by
        rintro before later units rfl
        exact getElem?_record before later units
      used_eq := agrees.spent.used_eq
      within := agrees.spent.within
      limit_eq := agrees.spent.limit_eq
      meter_eq := agrees.meter_eq
      remaining := agrees.remaining
      exhausted_iff := agrees.exhausted_iff
      latched := agrees.latched
      refused_iff := agrees.refused_iff
      refusal := agrees.refusal
      exact_of_finite := agrees.used_of_finite
      ample := fun ample => (Agrees.new limit meter).not_refused ample charges clean }

/-- A charge that is refused does not stand in the way of a smaller one. -/
example : ((Account.new 50 7).chargeAll [30, 21, 20]).tank = ⟨50, 7, 50, true⟩ := by decide

end ContractHost.Gas
