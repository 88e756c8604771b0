/-
# Accumulation.Report.Interfaces — which interface a capture device belongs to.

The manager matches the devices it captures from with the interfaces of the machine by their
addresses.  The loop over the addresses of a device ends in its first turn, with a break or with a
result, so only the first address counts (`findInterface_eq`).  `matchedByAny_iff` says for which
devices that makes no difference.
-/
import Accumulation.Go.Ip

namespace Accumulation.Report

open Accumulation.Go

/-! ## The search -/

/-- `net.Addr`: a network with its address, or something else. -/
inductive Addr
  | ipNet (ip : IP)
  | other
  deriving DecidableEq, Repr

/-- `net.Interface`; `none` is an error of its `Addrs`. -/
structure Interface where
  name : String
  addrs : Option (List Addr)
  deriving DecidableEq, Repr

def containStr : List Text → Text → Bool
  | [], _ => false
  | str :: set, target => if str = target then true else containStr set target

/-- The texts of the networks among the addresses. -/
def ipTexts (addrs : List Addr) : List Text :=
  addrs.filterMap fun
    | .ipNet ip => some ip.string
    | .other => none

/-- The loop over the addresses of a device, and whether it returns the interface. -/
def matchDevice (ips : List Text) : List IP → Bool
  | [] => false
  | pIf :: _ =>
    -- the loop is left when the address is not there
    if !containStr ips pIf.string then false else true

/-- `FindInterface` -/
def findInterface : List Interface → List IP → Option Interface
  | [], _ => none
  | fs :: ifs, pIfs =>
    match fs.addrs with
    | none => findInterface ifs pIfs
    | some addrs =>
      if matchDevice (ipTexts addrs) pIfs then some fs else findInterface ifs pIfs

/-! ## What it is to find -/

/-- A network with the address. -/
def Addr.equals (ip : IP) : Addr → Bool
  | .ipNet a => a.equal ip
  | .other => false

namespace Interface

/-- One of the interface's networks has the address. -/
def has (fs : Interface) (ip : IP) : Bool := (fs.addrs.getD []).any (Addr.equals ip)

/-- The interface and the device have an address in common. -/
def shares (fs : Interface) (pIfs : List IP) : Bool := pIfs.any fs.has

end Interface

/-- The first interface that shares an address is found, whatever the order of the addresses. -/
def MatchedByAny (ifs : List Interface) (pIfs : List IP) : Prop :=
  findInterface ifs pIfs = ifs.find? (·.shares pIfs) ∧
    ∀ pIfs' : List IP, pIfs'.Perm pIfs → findInterface ifs pIfs' = findInterface ifs pIfs

/-! ## What it finds -/

variable {ifs : List Interface} {pIfs : List IP}

theorem containStr_ipTexts (addrs : List Addr) (ip : IP) :
    containStr (ipTexts addrs) ip.string = addrs.any (Addr.equals ip) := by
  induction addrs with
  | nil => rfl
  | cons addr addrs ih =>
    cases addr with
    | other => exact ih
    | ipNet a =>
      show (if a.string = ip.string then true else containStr (ipTexts addrs) ip.string) =
        (a.equal ip || addrs.any (Addr.equals ip))
      rw [ih]
      by_cases heq : a.equal ip = true
      · rw [if_pos (IP.string_eq_iff.mpr heq), heq, Bool.true_or]
      · rw [if_neg (mt IP.string_eq_iff.mp heq), Bool.eq_false_of_not_eq_true heq, Bool.false_or]

/-- **Only the first address** of the device counts. -/
theorem findInterface_eq (ifs : List Interface) (ip : IP) (rest : List IP) :
    findInterface ifs (ip :: rest) = ifs.find? (·.has ip) := by
  induction ifs with
  | nil => rfl
  | cons fs ifs ih =>
    rcases haddrs : fs.addrs with _ | addrs
    · have hnot : fs.has ip = false := by
        rw [Interface.has, haddrs]
        rfl
      rw [findInterface, haddrs, List.find?_cons_of_neg (by rw [hnot]; exact Bool.false_ne_true)]
      exact ih
    · have hhas : matchDevice (ipTexts addrs) (ip :: rest) = fs.has ip := by
        rw [matchDevice, containStr_ipTexts, Interface.has, haddrs, Option.getD_some]
        cases addrs.any (Addr.equals ip) <;> rfl
      rw [findInterface, haddrs]
      show (if matchDevice (ipTexts addrs) (ip :: rest) then some fs else _) = _
      rw [hhas, ih, List.find?_cons]
      cases fs.has ip <;> rfl

theorem findInterface_nil (ifs : List Interface) : findInterface ifs [] = none := by
  induction ifs with
  | nil => rfl
  | cons fs ifs ih =>
    rcases haddrs : fs.addrs with _ | addrs
    · rw [findInterface, haddrs]
      exact ih
    · rw [findInterface, haddrs]
      exact ih

/-- An address that the first sharing interface has is found there first. -/
theorem find?_has_eq {ip : IP} (hip : ip ∈ pIfs)
    (hall : ∀ fs, ifs.find? (·.shares pIfs) = some fs → fs.has ip = true) :
    ifs.find? (·.has ip) = ifs.find? (·.shares pIfs) := by
  have hshares {fs : Interface} (h : fs.has ip = true) : fs.shares pIfs = true :=
    List.any_eq_true.mpr ⟨ip, hip, h⟩
  cases hfind : ifs.find? (·.shares pIfs) with
  | none =>
    rw [List.find?_eq_none] at hfind ⊢
    exact fun fs hfs => mt hshares (hfind fs hfs)
  | some fs =>
    have hhas := hall fs hfind
    rw [List.find?_eq_some_iff_append] at hfind ⊢
    obtain ⟨-, before, behind, hsplit, hbefore⟩ := hfind
    refine ⟨hhas, before, behind, hsplit, fun earlier hearlier => ?_⟩
    have hnot := hbefore earlier hearlier
    rw [Bool.not_eq_true'] at hnot ⊢
    exact Bool.eq_false_of_not_eq_true fun h => Bool.false_ne_true (hnot.symm.trans (hshares h))

/-- **Any shared address will do** exactly when the first interface that shares one has them all. -/
theorem matchedByAny_iff (ifs : List Interface) (pIfs : List IP) : MatchedByAny ifs pIfs ↔
    ∀ fs, ifs.find? (·.shares pIfs) = some fs → ∀ ip ∈ pIfs, fs.has ip = true := by
  constructor
  · rintro ⟨hfound, horder⟩ fs hfs ip hip
    -- with this address in front, the same interface is found
    have hfront := horder (ip :: pIfs.erase ip) (List.perm_cons_erase hip).symm
    rw [findInterface_eq, hfound, hfs] at hfront
    exact List.find?_some (p := fun other : Interface => other.has ip) hfront
  · intro hall
    have hfound (pIfs' : List IP) (hperm : pIfs'.Perm pIfs) :
        findInterface ifs pIfs' = ifs.find? (·.shares pIfs) := by
      cases pIfs' with
      | nil =>
        rw [findInterface_nil, List.nil_perm.mp hperm]
        exact (List.find?_eq_none.mpr fun _ _ => Bool.false_ne_true).symm
      | cons ip rest =>
        have hip : ip ∈ pIfs := hperm.mem_iff.mp List.mem_cons_self
        rw [findInterface_eq]
        exact find?_has_eq hip fun fs hfs => hall fs hfs ip hip
    have hself := hfound pIfs (List.Perm.refl pIfs)
    exact ⟨hself, fun pIfs' hperm => (hfound pIfs' hperm).trans hself.symm⟩

/-- A device with the IPv4 address of an interface is not matched when another address comes
first. -/
theorem device_unmatched :
    findInterface [⟨"eth0", some [.ipNet [10, 0, 0, 1]]⟩] [[10, 0, 0, 2], [10, 0, 0, 1]] = none ∧
      ¬ MatchedByAny [⟨"eth0", some [.ipNet [10, 0, 0, 1]]⟩] [[10, 0, 0, 2], [10, 0, 0, 1]] := by
  have hnone : findInterface [⟨"eth0", some [.ipNet [10, 0, 0, 1]]⟩]
      [[10, 0, 0, 2], [10, 0, 0, 1]] = none := by decide
  refine ⟨hnone, fun h => ?_⟩
  rw [MatchedByAny, hnone] at h
  exact absurd h.1 (by decide)

end Accumulation.Report
