import Mathlib.Data.List.Nodup
import Mathlib.Data.List.Perm.Basic
import Mathlib.Data.String.Basic
import Ikun.Lib.Bytes

/-!
# The namespace of multimodal inputs

`_hash_multi_modal_obj` writes a recursive value to a hasher, field by field. The stream that it writes
determines the value, up to the insertion order of mappings and the type of byte strings
(`hashMultiModalObj_injective`): every tag and every length ends a field, and a decimal integer ends
where the next tag starts.

In the other direction the stream does not depend on the insertion order of a mapping as long as its
keys have different `repr`, by which they are sorted (`hashMultiModalObj_congr`). Two NaN keys have
the same one.
-/

namespace Ikun

open Bytes

/-- A value built from the types that `_hash_multi_modal_obj` tells apart. A mapping is its entries in
insertion order, and a float its bits. Strings are those that `encode` accepts. -/
inductive Value
  | none
  | map (entries : List (Value × Value))
  | list (items : List Value)
  | tuple (items : List Value)
  | str (s : String)
  | bytes (b : Bytes)
  | bytearray (b : Bytes)
  | bool (b : Bool)
  | int (n : ℤ)
  | float (bits : BitVec 64)

namespace Value

/-- `struct.pack("!Q", n)`; `none` is a `struct.error`. -/
def pack (n : ℕ) : Option Bytes := if n < 2 ^ 64 then some (bigEndian 8 n) else Option.none

/-- `value.encode()`. -/
def utf8 (s : String) : Bytes := s.toUTF8.data.toList

/-- `_sort_map_keys`, for entries that stand with the `repr` of their keys. -/
def sortMapKeys (entries : List (String × Bytes)) : List (String × Bytes) :=
  entries.mergeSort fun x y => x.1 ≤ y.1

variable (repr : Value → String)

mutual

/-- `_hash_multi_modal_obj`: what it writes to the hasher; `none` is an exception. -/
def hashMultiModalObj : Value → Option Bytes
  | .none => some (ascii "none|")
  | .map entries => do
    return ascii "map|" ++ (← pack entries.length) ++
      ((sortMapKeys (← hashEntries entries)).map Prod.snd).flatten
  | .list items => do
    return ascii "list|" ++ (← pack items.length) ++ (← hashItems items)
  | .tuple items => do
    return ascii "tuple|" ++ (← pack items.length) ++ (← hashItems items)
  | .str s => do
    return ascii "str|" ++ (← pack (utf8 s).length) ++ utf8 s
  | .bytes b => do
    return ascii "bytes|" ++ (← pack b.length) ++ b
  | .bytearray b => do
    return ascii "bytes|" ++ (← pack b.length) ++ b
  | .bool b => some (ascii "bool|" ++ if b then ascii "1" else ascii "0")
  | .int n => some (ascii "int|" ++ decimalInt n)
  | .float bits => some (ascii "float|" ++ bigEndian 8 bits.toNat)

/-- What the loop over the items of a list writes. -/
def hashItems : List Value → Option Bytes
  | [] => some []
  | item :: items => do return (← hashMultiModalObj item) ++ (← hashItems items)

/-- What the loop over the entries of a mapping writes for each of them, with the `repr` of the key. -/
def hashEntries : List (Value × Value) → Option (List (String × Bytes))
  | [] => some []
  | (key, value) :: entries => do
    return (repr key, ascii "k|" ++ (← hashMultiModalObj key) ++ ascii "v|" ++
      (← hashMultiModalObj value)) :: (← hashEntries entries)

end

/-! ## Equality up to insertion order -/

mutual

/-- The values are equal up to the insertion order of mappings and the type of byte strings. -/
inductive Same : Value → Value → Prop
  | none : Same .none .none
  | map {es fs gs} : fs.Perm gs → SameEntries es gs → Same (.map es) (.map fs)
  | list {xs ys} : SameItems xs ys → Same (.list xs) (.list ys)
  | tuple {xs ys} : SameItems xs ys → Same (.tuple xs) (.tuple ys)
  | str {s} : Same (.str s) (.str s)
  | bytes {b} : Same (.bytes b) (.bytes b)
  | bytesBytearray {b} : Same (.bytes b) (.bytearray b)
  | bytearrayBytes {b} : Same (.bytearray b) (.bytes b)
  | bytearray {b} : Same (.bytearray b) (.bytearray b)
  | bool {b} : Same (.bool b) (.bool b)
  | int {n} : Same (.int n) (.int n)
  | float {bits} : Same (.float bits) (.float bits)

/-- The items are the same, one by one. -/
inductive SameItems : List Value → List Value → Prop
  | nil : SameItems [] []
  | cons {x y xs ys} : Same x y → SameItems xs ys → SameItems (x :: xs) (y :: ys)

/-- The entries are the same, one by one. -/
inductive SameEntries : List (Value × Value) → List (Value × Value) → Prop
  | nil : SameEntries [] []
  | cons {k k' v v' es fs} : Same k k' → Same v v' → SameEntries es fs →
      SameEntries ((k, v) :: es) ((k', v') :: fs)

end

theorem sameEntries_iff {es fs : List (Value × Value)} :
    SameEntries es fs ↔ List.Forall₂ (fun e f => Same e.1 f.1 ∧ Same e.2 f.2) es fs := by
  constructor
  · intro h
    induction es generalizing fs with
    | nil => cases h; exact .nil
    | cons e es ih => cases h with | cons hk hv hes => exact .cons ⟨hk, hv⟩ (ih hes)
  · intro h
    induction h with
    | nil => exact .nil
    | cons hef _ ih => exact .cons hef.1 hef.2 ih

/-- Induction on a value: over the items of its lists and over the keys and values of its mappings. -/
theorem ind {P : Value → Prop} (none : P .none)
    (map : ∀ es, (∀ e ∈ es, P e.1 ∧ P e.2) → P (.map es)) (list : ∀ xs, (∀ x ∈ xs, P x) → P (.list xs))
    (tuple : ∀ xs, (∀ x ∈ xs, P x) → P (.tuple xs)) (str : ∀ s, P (.str s))
    (bytes : ∀ b, P (.bytes b)) (bytearray : ∀ b, P (.bytearray b)) (bool : ∀ b, P (.bool b))
    (int : ∀ n, P (.int n)) (float : ∀ bits, P (.float bits)) (v : Value) : P v := by
  refine @Value.rec P (fun es => ∀ e ∈ es, P e.1 ∧ P e.2) (fun xs => ∀ x ∈ xs, P x)
    (fun e => P e.1 ∧ P e.2) none map list tuple str bytes bytearray bool int float ?_ ?_ ?_ ?_ ?_ v
  · exact fun e he => absurd he List.not_mem_nil
  · exact fun e es he hes => List.forall_mem_cons.mpr ⟨he, hes⟩
  · exact fun x hx => absurd hx List.not_mem_nil
  · exact fun x xs hx hxs => List.forall_mem_cons.mpr ⟨hx, hxs⟩
  · exact fun k v hk hv => ⟨hk, hv⟩

/-! ## Reading the stream back -/

variable {repr} {r s : Bytes}

theorem pack_eq {n : ℕ} {p : Bytes} (h : pack n = some p) : n < 2 ^ 64 ∧ p = bigEndian 8 n := by
  unfold pack at h
  split at h
  · next hlt => exact ⟨hlt, (Option.some.inj h).symm⟩
  · exact absurd h (by simp)

theorem pack_append_inj {n m : ℕ} {p q : Bytes} (hp : pack n = some p) (hq : pack m = some q)
    (h : p ++ r = q ++ s) : n = m ∧ r = s := by
  obtain ⟨hn, rfl⟩ := pack_eq hp
  obtain ⟨hm, rfl⟩ := pack_eq hq
  exact bigEndian_append_inj hn hm h

/-- A tag and a length are read back. -/
theorem tag_pack_append_inj {n m : ℕ} {t p q x y : Bytes} (hp : pack n = some p)
    (hq : pack m = some q) (h : t ++ (p ++ x) ++ r = t ++ (q ++ y) ++ s) :
    n = m ∧ x ++ r = y ++ s := by
  simp only [List.append_assoc] at h
  exact pack_append_inj hp hq (List.append_cancel_left h)

theorem utf8_injective : Function.Injective utf8 := by
  intro s t h
  exact String.toByteArray_inj.mp (ByteArray.ext (Array.toList_inj.mp h))

/-- The name in the tag of a value. -/
def tagName : Value → String
  | .none => "none"
  | .map _ => "map"
  | .list _ => "list"
  | .tuple _ => "tuple"
  | .str _ => "str"
  | .bytes _ => "bytes"
  | .bytearray _ => "bytes"
  | .bool _ => "bool"
  | .int _ => "int"
  | .float _ => "float"

theorem tag_eq : ∀ name ∈ ["none", "map", "list", "tuple", "str", "bytes", "bool", "int", "float"],
    ascii (name ++ "|") = ascii name ++ [124] ∧ 124 ∉ ascii name ∧
      ∀ c ∈ (ascii name).head?, isDigit c = false := by
  decide +kernel

theorem tag_injective : ∀ n ∈ ["none", "map", "list", "tuple", "str", "bytes", "bool", "int", "float"],
    ∀ m ∈ ["none", "map", "list", "tuple", "str", "bytes", "bool", "int", "float"],
      ascii n = ascii m → n = m := by
  decide +kernel

theorem tagName_mem (v : Value) : v.tagName ∈
    ["none", "map", "list", "tuple", "str", "bytes", "bool", "int", "float"] := by
  cases v <;> simp [tagName]

theorem hashMultiModalObj_map {es : List (Value × Value)} {a : Bytes} :
    hashMultiModalObj repr (.map es) = some a ↔ ∃ p E, pack es.length = some p ∧
      hashEntries repr es = some E ∧ ascii "map|" ++ (p ++ ((sortMapKeys E).map Prod.snd).flatten) = a := by
  simp only [hashMultiModalObj, Option.bind_eq_bind, Option.bind_eq_some_iff, Option.pure_def,
    Option.some.injEq, List.append_assoc, exists_and_left]

theorem hashMultiModalObj_list {xs : List Value} {a : Bytes} :
    hashMultiModalObj repr (.list xs) = some a ↔ ∃ p q, pack xs.length = some p ∧
      hashItems repr xs = some q ∧ ascii "list|" ++ (p ++ q) = a := by
  simp only [hashMultiModalObj, Option.bind_eq_bind, Option.bind_eq_some_iff, Option.pure_def,
    Option.some.injEq, List.append_assoc, exists_and_left]

theorem hashMultiModalObj_tuple {xs : List Value} {a : Bytes} :
    hashMultiModalObj repr (.tuple xs) = some a ↔ ∃ p q, pack xs.length = some p ∧
      hashItems repr xs = some q ∧ ascii "tuple|" ++ (p ++ q) = a := by
  simp only [hashMultiModalObj, Option.bind_eq_bind, Option.bind_eq_some_iff, Option.pure_def,
    Option.some.injEq, List.append_assoc, exists_and_left]

theorem hashMultiModalObj_str {t : String} {a : Bytes} :
    hashMultiModalObj repr (.str t) = some a ↔ ∃ p, pack (utf8 t).length = some p ∧
      ascii "str|" ++ (p ++ utf8 t) = a := by
  simp only [hashMultiModalObj, Option.bind_eq_bind, Option.bind_eq_some_iff, Option.pure_def,
    Option.some.injEq, List.append_assoc]

theorem hashMultiModalObj_bytes {b a : Bytes} :
    hashMultiModalObj repr (.bytes b) = some a ↔ ∃ p, pack b.length = some p ∧
      ascii "bytes|" ++ (p ++ b) = a := by
  simp only [hashMultiModalObj, Option.bind_eq_bind, Option.bind_eq_some_iff, Option.pure_def,
    Option.some.injEq, List.append_assoc]

/-- A `bytearray` is written as the byte string of its contents. -/
theorem hashMultiModalObj_bytearray (b : Bytes) :
    hashMultiModalObj repr (.bytearray b) = hashMultiModalObj repr (.bytes b) := rfl

/-- The stream of a value starts with its tag. -/
theorem exists_tag {v : Value} {a : Bytes} (h : hashMultiModalObj repr v = some a) :
    ∃ body, a = ascii (v.tagName ++ "|") ++ body := by
  cases v with
  | none => exact ⟨[], (Option.some.inj h).symm⟩
  | map es =>
    obtain ⟨p, E, hp, hE, rfl⟩ := hashMultiModalObj_map.mp h
    exact ⟨_, rfl⟩
  | list xs =>
    obtain ⟨p, q, hp, hq, rfl⟩ := hashMultiModalObj_list.mp h
    exact ⟨_, rfl⟩
  | tuple xs =>
    obtain ⟨p, q, hp, hq, rfl⟩ := hashMultiModalObj_tuple.mp h
    exact ⟨_, rfl⟩
  | str t =>
    obtain ⟨p, hp, rfl⟩ := hashMultiModalObj_str.mp h
    exact ⟨_, rfl⟩
  | bytes b =>
    obtain ⟨p, hp, rfl⟩ := hashMultiModalObj_bytes.mp h
    exact ⟨_, rfl⟩
  | bytearray b =>
    rw [hashMultiModalObj_bytearray] at h
    obtain ⟨p, hp, rfl⟩ := hashMultiModalObj_bytes.mp h
    exact ⟨_, rfl⟩
  | bool b => exact ⟨_, (Option.some.inj h).symm⟩
  | int n => exact ⟨_, (Option.some.inj h).symm⟩
  | float bits => exact ⟨_, (Option.some.inj h).symm⟩

theorem tagName_eq_of_append {v w : Value} {x y : Bytes}
    (h : ascii (v.tagName ++ "|") ++ x = ascii (w.tagName ++ "|") ++ y) :
    v.tagName = w.tagName ∧ x = y := by
  obtain ⟨hv, hvsep, -⟩ := tag_eq _ v.tagName_mem
  obtain ⟨hw, hwsep, -⟩ := tag_eq _ w.tagName_mem
  rw [hv, hw, List.append_assoc, List.append_assoc] at h
  obtain ⟨hname, hxy⟩ := separator_append_inj hvsep hwsep h
  exact ⟨tag_injective _ v.tagName_mem _ w.tagName_mem hname, hxy⟩

theorem tagName_eq {v w : Value} {a b : Bytes} (ha : hashMultiModalObj repr v = some a)
    (hb : hashMultiModalObj repr w = some b) (h : a ++ r = b ++ s) : v.tagName = w.tagName := by
  obtain ⟨x, rfl⟩ := exists_tag ha
  obtain ⟨y, rfl⟩ := exists_tag hb
  rw [List.append_assoc, List.append_assoc] at h
  exact (tagName_eq_of_append h).1

/-- Where a value is written, a decimal integer before it ends. -/
theorem delimited_hash {v : Value} {a : Bytes} (h : hashMultiModalObj repr v = some a) :
    Delimited (a ++ r) := by
  obtain ⟨body, rfl⟩ := exists_tag h
  obtain ⟨hv, -, hhead⟩ := tag_eq _ v.tagName_mem
  rw [hv]
  cases hname : ascii v.tagName with
  | nil => exact fun b hb => by obtain rfl := Option.some.inj hb; decide
  | cons c t =>
    rw [hname] at hhead
    exact fun b hb => hhead b hb

/-! ## The items of a list -/

theorem hashItems_cons {x : Value} {xs : List Value} {q : Bytes} :
    hashItems repr (x :: xs) = some q ↔ ∃ a q', hashMultiModalObj repr x = some a ∧
      hashItems repr xs = some q' ∧ a ++ q' = q := by
  simp only [hashItems, Option.bind_eq_bind, Option.bind_eq_some_iff, Option.pure_def,
    Option.some.injEq, exists_and_left]

theorem delimited_hashItems {xs : List Value} {q : Bytes} (h : hashItems repr xs = some q)
    (hr : Delimited r) : Delimited (q ++ r) := by
  cases xs with
  | nil =>
    obtain rfl := Option.some.inj h
    exact hr
  | cons x xs =>
    obtain ⟨a, q', ha, hq', rfl⟩ := hashItems_cons.mp h
    rw [List.append_assoc]
    exact delimited_hash ha

variable (repr) in
/-- Whatever follows it, the stream of the value can be read back. -/
def Readable (v : Value) : Prop :=
  ∀ ⦃w : Value⦄ ⦃a b r s : Bytes⦄, hashMultiModalObj repr v = some a →
    hashMultiModalObj repr w = some b → Delimited r → Delimited s → a ++ r = b ++ s →
    Same v w ∧ r = s

theorem hashItems_append_inj {xs ys : List Value} (hread : ∀ x ∈ xs, Readable repr x)
    (hlen : xs.length = ys.length) {p q : Bytes} (hp : hashItems repr xs = some p)
    (hq : hashItems repr ys = some q) (hr : Delimited r) (hs : Delimited s)
    (h : p ++ r = q ++ s) : SameItems xs ys ∧ r = s := by
  induction xs generalizing ys p q with
  | nil =>
    obtain rfl := List.length_eq_zero_iff.mp hlen.symm
    obtain rfl := Option.some.inj hp
    obtain rfl := Option.some.inj hq
    exact ⟨.nil, h⟩
  | cons x xs ih =>
    cases ys with
    | nil => exact absurd hlen (Nat.succ_ne_zero _)
    | cons y ys =>
      obtain ⟨a, p', ha, hp', rfl⟩ := hashItems_cons.mp hp
      obtain ⟨b, q', hb, hq', rfl⟩ := hashItems_cons.mp hq
      rw [List.append_assoc, List.append_assoc] at h
      obtain ⟨hxy, hrest⟩ := hread x List.mem_cons_self ha hb (delimited_hashItems hp' hr)
        (delimited_hashItems hq' hs) h
      obtain ⟨hitems, hrs⟩ := ih (fun z hz => hread z (List.mem_cons_of_mem _ hz))
        (Nat.succ.inj hlen) hp' hq' hrest
      exact ⟨.cons hxy hitems, hrs⟩

/-! ## The entries of a mapping -/

variable (repr) in
/-- What is written for an entry, with the `repr` of its key. -/
def EntryStream (e : Value × Value) (x : String × Bytes) : Prop :=
  x.1 = repr e.1 ∧ ∃ a b, hashMultiModalObj repr e.1 = some a ∧
    hashMultiModalObj repr e.2 = some b ∧ x.2 = ascii "k|" ++ (a ++ (ascii "v|" ++ b))

theorem hashEntries_eq_some {es : List (Value × Value)} {E : List (String × Bytes)} :
    hashEntries repr es = some E ↔ List.Forall₂ (EntryStream repr) es E := by
  induction es generalizing E with
  | nil =>
    rw [hashEntries, Option.some.injEq, List.forall₂_nil_left_iff, eq_comm]
  | cons e es ih =>
    obtain ⟨k, v⟩ := e
    simp only [hashEntries, Option.bind_eq_bind, Option.bind_eq_some_iff, Option.pure_def,
      Option.some.injEq, List.forall₂_cons_left_iff, List.append_assoc]
    constructor
    · rintro ⟨a, ha, b, hb, E', hE', rfl⟩
      exact ⟨_, _, ⟨rfl, a, b, ha, hb, rfl⟩, ih.mp hE', rfl⟩
    · rintro ⟨⟨n, x⟩, E', ⟨hn, a, b, ha, hb, hx⟩, hE', rfl⟩
      exact ⟨a, ha, b, hb, E', ih.mpr hE', by rw [← hx, ← hn]⟩

theorem delimited_entries {es : List (Value × Value)} {E : List (String × Bytes)}
    (hE : List.Forall₂ (EntryStream repr) es E) (hr : Delimited r) :
    Delimited ((E.map Prod.snd).flatten ++ r) := by
  cases hE with
  | nil => exact hr
  | cons hx hE =>
    obtain ⟨-, a, b, ha, hb, hx⟩ := hx
    rw [List.map_cons, List.flatten_cons, hx]
    exact fun c hc => by obtain rfl := Option.some.inj hc; decide

theorem entries_append_inj {es fs : List (Value × Value)} {E F : List (String × Bytes)}
    (hread : ∀ e ∈ es, Readable repr e.1 ∧ Readable repr e.2) (hlen : es.length = fs.length)
    (hE : List.Forall₂ (EntryStream repr) es E) (hF : List.Forall₂ (EntryStream repr) fs F)
    (hr : Delimited r) (hs : Delimited s)
    (h : (E.map Prod.snd).flatten ++ r = (F.map Prod.snd).flatten ++ s) :
    SameEntries es fs ∧ r = s := by
  induction hE generalizing fs F with
  | nil =>
    obtain rfl := List.length_eq_zero_iff.mp hlen.symm
    cases hF
    exact ⟨.nil, h⟩
  | cons hx hE ih =>
    cases hF with
    | nil => exact absurd hlen (Nat.succ_ne_zero _)
    | cons hy hF =>
      obtain ⟨-, a, b, ha, hb, hx⟩ := hx
      obtain ⟨-, a', b', ha', hb', hy⟩ := hy
      obtain ⟨hkey, hval⟩ := hread _ List.mem_cons_self
      simp only [List.map_cons, List.flatten_cons, hx, hy, List.append_assoc] at h
      have hvalueDelimited (t : Bytes) : Delimited (ascii "v|" ++ t) :=
        fun c hc => by obtain rfl := Option.some.inj hc; decide
      obtain ⟨hsameKey, h⟩ := hkey ha ha' (hvalueDelimited _) (hvalueDelimited _)
        (List.append_cancel_left h)
      obtain ⟨hsameValue, h⟩ := hval hb hb' (delimited_entries hE hr) (delimited_entries hF hs)
        (List.append_cancel_left h)
      obtain ⟨hentries, hrs⟩ := ih (fun e he => hread e (List.mem_cons_of_mem _ he))
        (Nat.succ.inj hlen) hF h
      exact ⟨.cons hsameKey hsameValue hentries, hrs⟩

/-- Entries are sorted together with what is written for them. -/
theorem exists_perm_entries {es : List (Value × Value)} {E E' : List (String × Bytes)}
    (hE : List.Forall₂ (EntryStream repr) es E) (hperm : E'.Perm E) :
    ∃ es', List.Forall₂ (EntryStream repr) es' E' ∧ es'.Perm es := by
  obtain ⟨es', hes', hperm'⟩ := List.perm_comp_forall₂ hperm (List.Forall₂.flip hE)
  exact ⟨es', hes'.flip, hperm'⟩

/-! ## The stream determines the value -/

theorem readable_map {es : List (Value × Value)}
    (hread : ∀ e ∈ es, Readable repr e.1 ∧ Readable repr e.2) : Readable repr (.map es) := by
  intro w a b r s ha hb hr hs h
  have htag := tagName_eq ha hb h
  cases w with
  | map fs =>
    obtain ⟨p, E, hp, hE, rfl⟩ := hashMultiModalObj_map.mp ha
    obtain ⟨q, F, hq, hF, rfl⟩ := hashMultiModalObj_map.mp hb
    obtain ⟨hlen, h⟩ := tag_pack_append_inj hp hq h
    obtain ⟨es', hes', hpermE⟩ :=
      exists_perm_entries (hashEntries_eq_some.mp hE) (List.mergeSort_perm E _)
    obtain ⟨fs', hfs', hpermF⟩ :=
      exists_perm_entries (hashEntries_eq_some.mp hF) (List.mergeSort_perm F _)
    obtain ⟨hentries, hrs⟩ := entries_append_inj (fun e he => hread e (hpermE.mem_iff.mp he))
      (hpermE.length_eq.trans (hlen.trans hpermF.length_eq.symm)) hes' hfs' hr hs h
    -- The entries that were written together, in the insertion order of the first mapping.
    obtain ⟨gs, hgs, hperm⟩ := List.perm_comp_forall₂ hpermE.symm (sameEntries_iff.mp hentries)
    exact ⟨.map (hpermF.symm.trans hperm.symm) (sameEntries_iff.mpr hgs), hrs⟩
  | _ => exact absurd htag (by simp [tagName])

theorem readable_list {xs : List Value} (hread : ∀ x ∈ xs, Readable repr x) :
    Readable repr (.list xs) := by
  intro w a b r s ha hb hr hs h
  have htag := tagName_eq ha hb h
  cases w with
  | list ys =>
    obtain ⟨p, x, hp, hx, rfl⟩ := hashMultiModalObj_list.mp ha
    obtain ⟨q, y, hq, hy, rfl⟩ := hashMultiModalObj_list.mp hb
    obtain ⟨hlen, h⟩ := tag_pack_append_inj hp hq h
    obtain ⟨hitems, hrs⟩ := hashItems_append_inj hread hlen hx hy hr hs h
    exact ⟨.list hitems, hrs⟩
  | _ => exact absurd htag (by simp [tagName])

theorem readable_tuple {xs : List Value} (hread : ∀ x ∈ xs, Readable repr x) :
    Readable repr (.tuple xs) := by
  intro w a b r s ha hb hr hs h
  have htag := tagName_eq ha hb h
  cases w with
  | tuple ys =>
    obtain ⟨p, x, hp, hx, rfl⟩ := hashMultiModalObj_tuple.mp ha
    obtain ⟨q, y, hq, hy, rfl⟩ := hashMultiModalObj_tuple.mp hb
    obtain ⟨hlen, h⟩ := tag_pack_append_inj hp hq h
    obtain ⟨hitems, hrs⟩ := hashItems_append_inj hread hlen hx hy hr hs h
    exact ⟨.tuple hitems, hrs⟩
  | _ => exact absurd htag (by simp [tagName])

theorem readable_str (t : String) : Readable repr (.str t) := by
  intro w a b r s ha hb hr hs h
  have htag := tagName_eq ha hb h
  cases w with
  | str u =>
    obtain ⟨p, hp, rfl⟩ := hashMultiModalObj_str.mp ha
    obtain ⟨q, hq, rfl⟩ := hashMultiModalObj_str.mp hb
    obtain ⟨hlen, h⟩ := tag_pack_append_inj hp hq h
    obtain ⟨htu, hrs⟩ := List.append_inj h hlen
    obtain rfl := utf8_injective htu
    exact ⟨.str, hrs⟩
  | _ => exact absurd htag (by simp [tagName])

/-- Two byte-string values with the same stream have the same bytes. -/
theorem bytes_append_inj {b c x y : Bytes} (hx : hashMultiModalObj repr (.bytes b) = some x)
    (hy : hashMultiModalObj repr (.bytes c) = some y) (h : x ++ r = y ++ s) : b = c ∧ r = s := by
  obtain ⟨p, hp, rfl⟩ := hashMultiModalObj_bytes.mp hx
  obtain ⟨q, hq, rfl⟩ := hashMultiModalObj_bytes.mp hy
  obtain ⟨hlen, h⟩ := tag_pack_append_inj hp hq h
  exact List.append_inj h hlen

theorem readable_bytes (b : Bytes) : Readable repr (.bytes b) := by
  intro w x y r s hx hy hr hs h
  have htag := tagName_eq hx hy h
  cases w with
  | bytes c =>
    obtain ⟨rfl, hrs⟩ := bytes_append_inj hx hy h
    exact ⟨.bytes, hrs⟩
  | bytearray c =>
    rw [hashMultiModalObj_bytearray] at hy
    obtain ⟨rfl, hrs⟩ := bytes_append_inj hx hy h
    exact ⟨.bytesBytearray, hrs⟩
  | _ => exact absurd htag (by simp [tagName])

theorem readable_bytearray (b : Bytes) : Readable repr (.bytearray b) := by
  intro w x y r s hx hy hr hs h
  rw [hashMultiModalObj_bytearray] at hx
  obtain ⟨hsame, hrs⟩ := readable_bytes b hx hy hr hs h
  cases hsame with
  | bytes => exact ⟨.bytearrayBytes, hrs⟩
  | bytesBytearray => exact ⟨.bytearray, hrs⟩

theorem readable (v : Value) : Readable repr v := by
  induction v using ind with
  | none =>
    intro w a b r s ha hb hr hs h
    have htag := tagName_eq ha hb h
    cases w with
    | none =>
      obtain rfl := Option.some.inj ha
      obtain rfl := Option.some.inj hb
      exact ⟨.none, List.append_cancel_left h⟩
    | _ => exact absurd htag (by simp [tagName])
  | map es ih => exact readable_map ih
  | list xs ih => exact readable_list ih
  | tuple xs ih => exact readable_tuple ih
  | str t => exact readable_str t
  | bytes b => exact readable_bytes b
  | bytearray b => exact readable_bytearray b
  | bool c =>
    intro w a b r s ha hb hr hs h
    have htag := tagName_eq ha hb h
    cases w with
    | bool d =>
      obtain rfl := Option.some.inj ha
      obtain rfl := Option.some.inj hb
      rw [List.append_assoc, List.append_assoc] at h
      obtain ⟨hbit, hrs⟩ := List.append_inj (List.append_cancel_left h) (by cases c <;> cases d <;> rfl)
      obtain rfl : c = d := by
        cases c <;> cases d <;> first | rfl | exact absurd hbit (by decide)
      exact ⟨.bool, hrs⟩
    | _ => exact absurd htag (by simp [tagName])
  | int n =>
    intro w a b r s ha hb hr hs h
    have htag := tagName_eq ha hb h
    cases w with
    | int m =>
      obtain rfl := Option.some.inj ha
      obtain rfl := Option.some.inj hb
      rw [List.append_assoc, List.append_assoc] at h
      obtain ⟨rfl, hrs⟩ := decimalInt_append_inj hr hs (List.append_cancel_left h)
      exact ⟨.int, hrs⟩
    | _ => exact absurd htag (by simp [tagName])
  | float x =>
    intro w a b r s ha hb hr hs h
    have htag := tagName_eq ha hb h
    cases w with
    | float y =>
      obtain rfl := Option.some.inj ha
      obtain rfl := Option.some.inj hb
      rw [List.append_assoc, List.append_assoc] at h
      obtain ⟨hbits, hrs⟩ := bigEndian_append_inj x.isLt y.isLt (List.append_cancel_left h)
      obtain rfl := BitVec.eq_of_toNat_eq hbits
      exact ⟨.float, hrs⟩
    | _ => exact absurd htag (by simp [tagName])

/-- Values with the same stream are the same. -/
theorem hashMultiModalObj_injective {v w : Value} {a : Bytes}
    (hv : hashMultiModalObj repr v = some a) (hw : hashMultiModalObj repr w = some a) :
    Same v w :=
  (readable v hv hw (r := []) (s := []) (fun _ h => absurd h (by simp))
    (fun _ h => absurd h (by simp)) rfl).1

/-! ## Insertion order -/

/-- Values that can be keys of a mapping: the hashable ones. -/
inductive IsKey : Value → Prop
  | none : IsKey .none
  | tuple {xs} : (∀ x ∈ xs, IsKey x) → IsKey (.tuple xs)
  | str {t} : IsKey (.str t)
  | bytes {b} : IsKey (.bytes b)
  | bool {b} : IsKey (.bool b)
  | int {n} : IsKey (.int n)
  | float {bits} : IsKey (.float bits)

/-- The keys of every mapping in the value are hashable and have different `repr`. -/
inductive KeysDistinct (repr : Value → String) : Value → Prop
  | none : KeysDistinct repr .none
  | map {es} : (∀ e ∈ es, IsKey e.1) → (es.map fun e => repr e.1).Nodup →
      (∀ e ∈ es, KeysDistinct repr e.2) → KeysDistinct repr (.map es)
  | list {xs} : (∀ x ∈ xs, KeysDistinct repr x) → KeysDistinct repr (.list xs)
  | tuple {xs} : (∀ x ∈ xs, KeysDistinct repr x) → KeysDistinct repr (.tuple xs)
  | str {t} : KeysDistinct repr (.str t)
  | bytes {b} : KeysDistinct repr (.bytes b)
  | bytearray {b} : KeysDistinct repr (.bytearray b)
  | bool {b} : KeysDistinct repr (.bool b)
  | int {n} : KeysDistinct repr (.int n)
  | float {bits} : KeysDistinct repr (.float bits)

/-- Keys that are the same are equal: no key holds a mapping or a `bytearray`. -/
theorem IsKey.eq_of_same {v w : Value} (hv : IsKey v) (hw : IsKey w) (h : Same v w) : v = w := by
  induction hv generalizing w with
  | @tuple xs hkeys ih =>
    cases h with | @tuple _ ys hitems =>
    cases hw with | tuple hkeys' =>
    congr 1
    clear hkeys
    induction xs generalizing ys with
    | nil => cases hitems; rfl
    | cons x xs ihxs =>
      cases hitems with | cons hx hxs =>
      rw [ih x List.mem_cons_self (hkeys' _ List.mem_cons_self) hx,
        ihxs (fun y hy => ih y (List.mem_cons_of_mem _ hy)) hxs
          (fun y hy => hkeys' y (List.mem_cons_of_mem _ hy))]
  | bytes =>
    cases h with
    | bytes => rfl
    | bytesBytearray => cases hw
  | _ => cases h; rfl

/-- Two orders of the same entries are sorted alike when their keys have different `repr`. -/
theorem sortMapKeys_perm {E F : List (String × Bytes)} (hperm : F.Perm E)
    (hnodup : (E.map Prod.fst).Nodup) : sortMapKeys F = sortMapKeys E := by
  have hsorted (G : List (String × Bytes)) :
      (sortMapKeys G).Pairwise fun x y => decide (x.1 ≤ y.1) = true := by
    refine List.pairwise_mergeSort ?_ ?_ G
    · intro x y z hxy hyz
      exact decide_eq_true (le_trans (of_decide_eq_true hxy) (of_decide_eq_true hyz))
    · intro x y
      rw [← Bool.decide_or]
      exact decide_eq_true (le_total _ _)
  refine List.Perm.eq_of_pairwise ?_ (hsorted F) (hsorted E)
    ((List.mergeSort_perm F _).trans (hperm.trans (List.mergeSort_perm E _).symm))
  intro x y hx hy hxy hyx
  refine List.inj_on_of_nodup_map hnodup (hperm.mem_iff.mp (List.mem_mergeSort.mp hx))
    (List.mem_mergeSort.mp hy) ?_
  exact le_antisymm (of_decide_eq_true hxy) (of_decide_eq_true hyx)

variable (repr) in
/-- Values that are the same as this one have its stream. -/
def Canonical (v : Value) : Prop :=
  ∀ ⦃w : Value⦄ ⦃a : Bytes⦄, KeysDistinct repr v → KeysDistinct repr w → Same v w →
    hashMultiModalObj repr v = some a → hashMultiModalObj repr w = some a

theorem hashItems_congr {xs ys : List Value} (hcanon : ∀ x ∈ xs, Canonical repr x)
    (hxs : ∀ x ∈ xs, KeysDistinct repr x) (hys : ∀ y ∈ ys, KeysDistinct repr y)
    (h : SameItems xs ys) {q : Bytes} (hq : hashItems repr xs = some q) :
    hashItems repr ys = some q := by
  induction xs generalizing ys q with
  | nil => cases h; exact hq
  | cons x xs ih =>
    cases h with | cons hx hrest =>
    obtain ⟨a, q', ha, hq', rfl⟩ := hashItems_cons.mp hq
    refine hashItems_cons.mpr ⟨a, q', ?_, ?_, rfl⟩
    · exact hcanon x List.mem_cons_self (hxs x List.mem_cons_self) (hys _ List.mem_cons_self) hx ha
    · exact ih (fun z hz => hcanon z (List.mem_cons_of_mem _ hz))
        (fun z hz => hxs z (List.mem_cons_of_mem _ hz))
        (fun z hz => hys z (List.mem_cons_of_mem _ hz)) hrest hq'

theorem SameItems.length_eq {xs ys : List Value} (h : SameItems xs ys) : xs.length = ys.length := by
  induction xs generalizing ys with
  | nil => cases h; rfl
  | cons x xs ih => cases h with | cons _ hrest => rw [List.length_cons, List.length_cons, ih hrest]

theorem entries_congr {es gs : List (Value × Value)} {E : List (String × Bytes)}
    (hcanon : ∀ e ∈ es, Canonical repr e.2) (hkeys : ∀ e ∈ es, IsKey e.1)
    (hvalues : ∀ e ∈ es, KeysDistinct repr e.2) (hkeys' : ∀ g ∈ gs, IsKey g.1)
    (hvalues' : ∀ g ∈ gs, KeysDistinct repr g.2)
    (h : List.Forall₂ (fun e g => Same e.1 g.1 ∧ Same e.2 g.2) es gs)
    (hE : List.Forall₂ (EntryStream repr) es E) : List.Forall₂ (EntryStream repr) gs E := by
  induction h generalizing E with
  | nil => exact hE
  | @cons e g es gs heg hrest ih =>
    cases hE with | cons hx hE =>
    obtain ⟨hname, a, b, ha, hb, hx⟩ := hx
    refine .cons ⟨?_, a, b, ?_, ?_, hx⟩ (ih ?_ ?_ ?_ ?_ ?_ hE)
    · rw [← (hkeys e List.mem_cons_self).eq_of_same (hkeys' g List.mem_cons_self) heg.1]
      exact hname
    · rw [← (hkeys e List.mem_cons_self).eq_of_same (hkeys' g List.mem_cons_self) heg.1]
      exact ha
    · exact hcanon e List.mem_cons_self (hvalues e List.mem_cons_self)
        (hvalues' g List.mem_cons_self) heg.2 hb
    · exact fun z hz => hcanon z (List.mem_cons_of_mem _ hz)
    · exact fun z hz => hkeys z (List.mem_cons_of_mem _ hz)
    · exact fun z hz => hvalues z (List.mem_cons_of_mem _ hz)
    · exact fun z hz => hkeys' z (List.mem_cons_of_mem _ hz)
    · exact fun z hz => hvalues' z (List.mem_cons_of_mem _ hz)

/-- The names that entries are sorted by are the `repr` of their keys. -/
theorem entries_names {es : List (Value × Value)} {E : List (String × Bytes)}
    (hE : List.Forall₂ (EntryStream repr) es E) : E.map Prod.fst = es.map fun e => repr e.1 := by
  induction hE with
  | nil => rfl
  | cons hx _ ih => rw [List.map_cons, List.map_cons, hx.1, ih]

theorem canonical_map {es : List (Value × Value)}
    (hcanon : ∀ e ∈ es, Canonical repr e.2) : Canonical repr (.map es) := by
  intro w a hv hw h ha
  cases h with | @map _ fs gs hperm hentries =>
  cases hv with | map hkeys hnodup hvalues =>
  cases hw with | map hkeys' _ hvalues' =>
  obtain ⟨p, E, hp, hE, rfl⟩ := hashMultiModalObj_map.mp ha
  have hE := hashEntries_eq_some.mp hE
  have hentries := sameEntries_iff.mp hentries
  have hgs : List.Forall₂ (EntryStream repr) gs E :=
    entries_congr hcanon hkeys hvalues (fun g hg => hkeys' g (hperm.mem_iff.mpr hg))
      (fun g hg => hvalues' g (hperm.mem_iff.mpr hg)) hentries hE
  obtain ⟨F, hF, hpermE⟩ := List.perm_comp_forall₂ hperm hgs
  refine hashMultiModalObj_map.mpr ⟨p, F, ?_, hashEntries_eq_some.mpr hF, ?_⟩
  · rw [hperm.length_eq, ← hentries.length_eq]
    exact hp
  · rw [sortMapKeys_perm hpermE (entries_names hE ▸ hnodup)]

theorem canonical (v : Value) : Canonical repr v := by
  induction v using ind with
  | map es ih => exact canonical_map fun e he => (ih e he).2
  | list xs ih =>
    intro w a hv hw h ha
    cases h with | list hitems =>
    cases hv with | list hxs =>
    cases hw with | list hys =>
    obtain ⟨p, q, hp, hq, rfl⟩ := hashMultiModalObj_list.mp ha
    exact hashMultiModalObj_list.mpr
      ⟨p, q, hitems.length_eq ▸ hp, hashItems_congr ih hxs hys hitems hq, rfl⟩
  | tuple xs ih =>
    intro w a hv hw h ha
    cases h with | tuple hitems =>
    cases hv with | tuple hxs =>
    cases hw with | tuple hys =>
    obtain ⟨p, q, hp, hq, rfl⟩ := hashMultiModalObj_tuple.mp ha
    exact hashMultiModalObj_tuple.mpr
      ⟨p, q, hitems.length_eq ▸ hp, hashItems_congr ih hxs hys hitems hq, rfl⟩
  | _ => intro w a _ _ h ha; cases h <;> exact ha

/-- Values that are the same have the same stream. -/
theorem hashMultiModalObj_congr {v w : Value} {a b : Bytes} (hv : KeysDistinct repr v)
    (hw : KeysDistinct repr w) (h : Same v w) (ha : hashMultiModalObj repr v = some a)
    (hb : hashMultiModalObj repr w = some b) : a = b :=
  Option.some.inj ((canonical v hv hw h ha).symm.trans hb)

/-- Two values whose mappings have keys with different `repr` have the same stream exactly when they
are equal up to the insertion order of mappings and the type of byte strings. Without that condition,
values with the same stream are still equal in this way. -/
theorem hashMultiModalObj_eq_iff (repr : Value → String) (v w : Value) (a b : Bytes)
    (ha : hashMultiModalObj repr v = some a) (hb : hashMultiModalObj repr w = some b) :
    (a = b → Same v w) ∧
      (KeysDistinct repr v → KeysDistinct repr w → (a = b ↔ Same v w)) := by
  have hinj : a = b → Same v w := fun hab => hashMultiModalObj_injective ha (hab ▸ hb)
  exact ⟨hinj, fun hv hw => ⟨hinj, fun h => hashMultiModalObj_congr hv hw h ha hb⟩⟩

/-- `repr` of an integer; no other value is a key below. -/
def intRepr : Value → String
  | .int n => toString n
  | _ => ""

theorem hashMultiModalObj_eq_iff_twoOrders : ∃ a b,
    hashMultiModalObj intRepr (.map [(.int 2, .bool true), (.int 1, .none)]) = some a ∧
      hashMultiModalObj intRepr (.map [(.int 1, .none), (.int 2, .bool true)]) = some b ∧
      a = b := by
  have hkeys : KeysDistinct intRepr (.map [(.int 2, .bool true), (.int 1, .none)]) := by
    refine .map ?_ (by decide) ?_
    · simpa using ⟨IsKey.int, IsKey.int⟩
    · simpa using ⟨KeysDistinct.bool, KeysDistinct.none⟩
  have hkeys' : KeysDistinct intRepr (.map [(.int 1, .none), (.int 2, .bool true)]) := by
    refine .map ?_ (by decide) ?_
    · simpa using ⟨IsKey.int, IsKey.int⟩
    · simpa using ⟨KeysDistinct.none, KeysDistinct.bool⟩
  have hsame : Same (.map [(.int 2, .bool true), (.int 1, .none)])
      (.map [(.int 1, .none), (.int 2, .bool true)]) :=
    .map (.swap _ _ _) (.cons .int .bool (.cons .int .none .nil))
  exact ⟨_, _, rfl, rfl,
    ((hashMultiModalObj_eq_iff intRepr _ _ _ _ rfl rfl).2 hkeys hkeys').mpr hsame⟩

/-- Two NaN keys have the same `repr`, so that they are written in insertion order. -/
theorem not_hashMultiModalObj_congr_of_nanKeys : ¬ ∃ repr : Value → String, ∀ v w a b,
    hashMultiModalObj repr v = some a → hashMultiModalObj repr w = some b →
      (a = b ↔ Same v w) := by
  intro ⟨repr, h⟩
  let nan : Value := .float 0x7ff8000000000000#64
  have hsorted (x y : Bytes) :
      sortMapKeys [(repr nan, x), (repr nan, y)] = [(repr nan, x), (repr nan, y)] :=
    List.mergeSort_of_pairwise (by simp)
  have hstream := (h (.map [(nan, .none), (nan, .bool true)]) (.map [(nan, .bool true), (nan, .none)])
    _ _ rfl rfl).mpr (.map (.swap _ _ _) (.cons .float .none (.cons .float .bool .nil)))
  simp only [hsorted, List.map_cons, List.map_nil] at hstream
  exact absurd hstream (by decide)

end Value

end Ikun
