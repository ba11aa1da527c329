import VerilogLoops.Document.Calendar
import VerilogLoops.Number.Shortest
/-!
# Documents

The data that JSON and YAML texts stand for: scalars, lists and maps. A map keeps its entries in
the order in which they are written, and no key occurs twice. Its keys are texts in every document
that holds a syntax tree, but a YAML document may have keys of any kind. Numbers are one key if
they are equal, whatever kind of number they are.
-/

namespace VerilogLoops.Document

open VerilogLoops.Number

/-- A document. -/
inductive Data where
  | null
  | bool (b : Bool)
  | int (i : Int)
  | real (r : Binary64)
  | text (s : String)
  | list (items : List Data)
  | map (entries : List (Data × Data))
  /-- The keys of a map, without their values. -/
  | set (items : List Data)
  /-- A key and its value outside of a map. -/
  | pair (key value : Data)
  /-- Binary data, octet by octet. -/
  | binary (octets : List UInt8)
  | date (year month day : Nat)
  /-- A date and a time of day, with the part of a second in millionths and the distance from
  universal time in seconds, if it is given. -/
  | moment (year month day hour minute second millionths : Nat) (zone : Option Int)
deriving Repr

instance : Inhabited Data := ⟨.null⟩

mutual

/-- The documents are the same. -/
def Data.same : Data → Data → Bool
  | .null, .null => true
  | .bool a, .bool b => a = b
  | .int a, .int b => a = b
  | .real a, .real b => a = b
  | .text a, .text b => a = b
  | .list as, .list bs => sameItems as bs
  | .map as, .map bs => sameEntries as bs
  | .set as, .set bs => sameItems as bs
  | .pair k v, .pair k' v' => k.same k' && v.same v'
  | .binary a, .binary b => a = b
  | .date y m d, .date y' m' d' => y = y' && m = m' && d = d'
  | .moment y m d h mi s u z, .moment y' m' d' h' mi' s' u' z' =>
    y = y' && m = m' && d = d' && h = h' && mi = mi' && s = s' && u = u' && z = z'
  | _, _ => false

/-- The lists are the same. -/
def sameItems : List Data → List Data → Bool
  | [], [] => true
  | a :: as, b :: bs => a.same b && sameItems as bs
  | _, _ => false

/-- The entries are the same, in the same order. -/
def sameEntries : List (Data × Data) → List (Data × Data) → Bool
  | [], [] => true
  | (k, v) :: as, (k', v') :: bs => k.same k' && v.same v' && sameEntries as bs
  | _, _ => false

end

mutual

/-- What is the same is equal. -/
theorem Data.eq_of_same : ∀ a b : Data, a.same b = true → a = b
  | .list as, b, h => by
    cases b <;> simp only [Data.same, Bool.false_eq_true] at h
    rw [eq_of_sameItems as _ h]
  | .map as, b, h => by
    cases b <;> simp only [Data.same, Bool.false_eq_true] at h
    rw [eq_of_sameEntries as _ h]
  | .set as, b, h => by
    cases b <;> simp only [Data.same, Bool.false_eq_true] at h
    rw [eq_of_sameItems as _ h]
  | .pair k v, b, h => by
    cases b <;> simp only [Data.same, Bool.false_eq_true, Bool.and_eq_true] at h
    rw [Data.eq_of_same k _ h.1, Data.eq_of_same v _ h.2]
  | .null, b, h => by cases b <;> simp_all [Data.same]
  | .bool a, b, h => by cases b <;> simp_all [Data.same]
  | .int a, b, h => by cases b <;> simp_all [Data.same]
  | .real a, b, h => by cases b <;> simp_all [Data.same]
  | .text a, b, h => by cases b <;> simp_all [Data.same]
  | .binary a, b, h => by cases b <;> simp_all [Data.same]
  | .date y m d, b, h => by cases b <;> simp_all [Data.same]
  | .moment y m d h mi s u z, b, h' => by cases b <;> simp_all [Data.same]

/-- What is the same is equal, for lists. -/
theorem eq_of_sameItems : ∀ as bs : List Data, sameItems as bs = true → as = bs
  | [], bs, h => by cases bs <;> simp_all [sameItems]
  | a :: as, bs, h => by
    cases bs with
    | nil => simp [sameItems] at h
    | cons b bs =>
      simp only [sameItems, Bool.and_eq_true] at h
      rw [Data.eq_of_same a b h.1, eq_of_sameItems as bs h.2]

/-- What is the same is equal, for the entries of maps. -/
theorem eq_of_sameEntries :
    ∀ as bs : List (Data × Data), sameEntries as bs = true → as = bs
  | [], bs, h => by cases bs <;> simp_all [sameEntries]
  | (k, v) :: as, bs, h => by
    cases bs with
    | nil => simp [sameEntries] at h
    | cons b bs =>
      obtain ⟨k', v'⟩ := b
      simp only [sameEntries, Bool.and_eq_true] at h
      rw [Data.eq_of_same k k' h.1.1, Data.eq_of_same v v' h.1.2, eq_of_sameEntries as bs h.2]

end

mutual

/-- A document is the same as itself. -/
theorem Data.same_self : ∀ a : Data, a.same a = true
  | .list as => by simp [Data.same, sameItems_self as]
  | .map as => by simp [Data.same, sameEntries_self as]
  | .set as => by simp [Data.same, sameItems_self as]
  | .pair k v => by simp [Data.same, Data.same_self k, Data.same_self v]
  | .null | .bool _ | .int _ | .real _ | .text _ | .binary _ | .date .. | .moment .. => by
    simp [Data.same]

/-- A list is the same as itself. -/
theorem sameItems_self : ∀ as : List Data, sameItems as as = true
  | [] => rfl
  | a :: as => by simp [sameItems, Data.same_self a, sameItems_self as]

/-- The entries of a map are the same as themselves. -/
theorem sameEntries_self : ∀ as : List (Data × Data), sameEntries as as = true
  | [] => rfl
  | (k, v) :: as => by
    simp [sameEntries, Data.same_self k, Data.same_self v, sameEntries_self as]

end

instance : DecidableEq Data := fun a b =>
  decidable_of_iff (a.same b = true) ⟨Data.eq_of_same a b, fun h => h ▸ Data.same_self a⟩

/-- The value of a key among the entries of a map. -/
def lookup (key : String) (entries : List (Data × Data)) : Option Data :=
  (entries.find? (fun e => e.1 = .text key)).map (·.2)

/-- A number counts as this whole number. Truth counts as one and falsehood as nothing. -/
def Data.countsAs (i : Int) : Data → Bool
  | .bool b => (if b then 1 else 0) = i
  | .int j => j = i
  | .real r => r.isInt i
  | _ => false

/-- A moment on the scale of universal time, in seconds. -/
def instant (year month day hour minute second : Nat) (zone : Int) : Int :=
  dayNumber year month day * 86400 + (hour * 3600 + minute * 60 + second) - zone

/-- Two keys of a map are one and the same. Numbers are compared by what they count, zero having no
sign, and moments that know their distance from universal time by when they are. -/
def Data.sameKey : Data → Data → Bool
  | .bool b, key => key.countsAs (if b then 1 else 0)
  | .int i, key => key.countsAs i
  | .real r, .real s => r = s || (r.isZero && s.isZero)
  | .real r, .int i => r.isInt i
  | .real r, .bool b => r.isInt (if b then 1 else 0)
  | .moment y m d h mi s u (some z), .moment y' m' d' h' mi' s' u' (some z') =>
    instant y m d h mi s z = instant y' m' d' h' mi' s' z' && u = u'
  | k, key => k = key

/-- The entries with one more. A key that is there already keeps its place and takes the new
value. -/
def addEntry (key value : Data) : List (Data × Data) → List (Data × Data)
  | [] => [(key, value)]
  | (k, v) :: rest =>
    if k.sameKey key then (k, value) :: rest else (k, v) :: addEntry key value rest

/-- Texts are the same key if they are equal. -/
theorem Data.sameKey_text (s t : String) :
    Data.sameKey (.text s) (.text t) = true ↔ s = t := by
  simp [Data.sameKey]

/-- A map with the given entries, of which later ones override earlier ones of the same key. -/
def Data.ofEntries (entries : List (Data × Data)) : Data :=
  .map (entries.foldl (fun acc e => addEntry e.1 e.2 acc) [])

/-- A map whose keys are texts. -/
def Data.record (entries : List (String × Data)) : Data :=
  .map (entries.map fun e => (.text e.1, e.2))

end VerilogLoops.Document
