import QuicTls.Crypto.X509.Name
import Mathlib.Data.Multiset.MapFold
import Mathlib.Data.List.Sort

/-!
# Comparing canonical names

One canonical encoding begins with another exactly if the relative distinguished names do, where a
relative distinguished name is a multiset of attributes.
-/

namespace QuicTls.X509

open List

theorem derCmpLe_total (a b : Bytes) : derCmpLe a b || derCmpLe b a := by
  induction a generalizing b with
  | nil => simp [derCmpLe]
  | cons x a ih =>
    cases b with
    | nil => simp [derCmpLe]
    | cons y b =>
      have hrest := ih b
      simp only [derCmpLe, Bool.or_eq_true, Bool.and_eq_true, decide_eq_true_eq] at hrest ⊢
      by_cases heq : x = y
      · exact hrest.imp (fun h => .inr ⟨heq, h⟩) (fun h => .inr ⟨heq.symm, h⟩)
      · exact (UInt8.lt_or_lt_of_ne heq).imp .inl .inl

theorem derCmpLe_trans (a b c : Bytes) (hab : derCmpLe a b) (hbc : derCmpLe b c) :
    derCmpLe a c := by
  induction a generalizing b c with
  | nil => rfl
  | cons x a ih =>
    cases b with
    | nil => cases hab
    | cons y b =>
      cases c with
      | nil => cases hbc
      | cons z c =>
        simp only [derCmpLe, Bool.or_eq_true, Bool.and_eq_true, decide_eq_true_eq] at hab hbc ⊢
        obtain hxy | ⟨rfl, hab⟩ := hab
        · obtain hyz | ⟨rfl, -⟩ := hbc
          · exact .inl (UInt8.lt_trans hxy hyz)
          · exact .inl hxy
        · obtain hyz | ⟨rfl, hbc⟩ := hbc
          · exact .inl hyz
          · exact .inr ⟨rfl, ih b c hab hbc⟩

theorem derCmpLe_antisymm {a b : Bytes} (hab : derCmpLe a b) (hba : derCmpLe b a) : a = b := by
  induction a generalizing b with
  | nil =>
    cases b with
    | nil => rfl
    | cons y b => cases hba
  | cons x a ih =>
    cases b with
    | nil => cases hab
    | cons y b =>
      simp only [derCmpLe, Bool.or_eq_true, Bool.and_eq_true, decide_eq_true_eq] at hab hba
      obtain hxy | ⟨rfl, hab⟩ := hab
      · obtain hyx | ⟨rfl, -⟩ := hba
        · exact absurd hxy (UInt8.lt_asymm hyx)
        · exact absurd hxy (UInt8.lt_irrefl _)
      · obtain hxx | ⟨-, hba⟩ := hba
        · exact absurd hxx (UInt8.lt_irrefl _)
        · rw [ih hab hba]

variable {b a : List CanonAttr}

/-- The sorted list depends on the attributes only, not on their order. -/
theorem sortedAttrs_eq_iff :
    sortedAttrs a = sortedAttrs b ↔ (a.map CanonAttr.encode).Perm (b.map CanonAttr.encode) := by
  constructor
  · intro h
    have hperm : (sortedAttrs b).Perm (b.map CanonAttr.encode) := mergeSort_perm _ _
    have hperm' : (sortedAttrs a).Perm (a.map CanonAttr.encode) := mergeSort_perm _ _
    exact hperm'.symm.trans (h ▸ hperm)
  intro h
  have hperm := ((mergeSort_perm (a.map CanonAttr.encode) derCmpLe).trans h).trans
    (mergeSort_perm (b.map CanonAttr.encode) derCmpLe).symm
  refine hperm.eq_of_pairwise (fun _ _ _ _ => derCmpLe_antisymm) ?_ ?_ <;>
    exact pairwise_mergeSort derCmpLe_trans derCmpLe_total _

variable {rdn : List CanonAttr}

theorem mem_sortedAttrs {e : Bytes} : e ∈ sortedAttrs rdn ↔ ∃ a ∈ rdn, a.encode = e := by
  rw [sortedAttrs, mem_mergeSort, mem_map]

/-- The encoding of an attribute whose length fits. -/
def IsAttr (e : Bytes) : Prop := ∃ a : CanonAttr, a.encode = e ∧ e.length < 256 ^ 4

theorem encode_inj {a b : CanonAttr} (ha : a.encode.length < 256 ^ 4)
    (hb : b.encode.length < 256 ^ 4) (h : a.encode = b.encode) : a = b := by
  have hle (a : CanonAttr) : a.object.length < a.encode.length ∧
      a.value.length < a.encode.length := by
    have houter := length_lt_tlv 0x30 (tlv 0x06 a.object ++ tlv a.tag a.value)
    have hobject := length_lt_tlv 0x06 a.object
    have hvalue := length_lt_tlv a.tag a.value
    rw [length_append] at houter
    unfold CanonAttr.encode
    omega
  have hcontents := (tlv_inj ((length_lt_tlv _ _).trans ha) ((length_lt_tlv _ _).trans hb)
    (congrArg (· ++ []) h)).2.1
  obtain ⟨-, hobject, hrest⟩ := tlv_inj ((hle a).1.trans ha) ((hle b).1.trans hb) hcontents
  obtain ⟨htag, hvalue, -⟩ := tlv_inj ((hle a).2.trans ha) ((hle b).2.trans hb)
    (congrArg (· ++ []) hrest)
  cases a
  simp_all

theorem selfDelimiting_attr : SelfDelimiting IsAttr fun e => e where
  ne_nil := by
    rintro _ ⟨a, rfl, -⟩
    exact cons_ne_nil _ _
  inj := by
    rintro _ _ x y ⟨a, rfl, ha⟩ ⟨b, rfl, hb⟩ h
    obtain ⟨-, hcontents, hrest⟩ := tlv_inj ((length_lt_tlv _ _).trans ha)
      ((length_lt_tlv _ _).trans hb) h
    exact ⟨congrArg (tlv 0x30) hcontents, hrest⟩

/-- The sorted attributes of a relative distinguished name whose length fits. -/
def IsSet (s : List Bytes) : Prop := (∀ e ∈ s, IsAttr e) ∧ (encodeSet s).length < 256 ^ 4

theorem selfDelimiting_set : SelfDelimiting IsSet encodeSet where
  ne_nil _ := cons_ne_nil _ _
  inj := by
    intro s t x y hs ht h
    obtain ⟨-, hcontents, hrest⟩ := tlv_inj ((length_lt_tlv _ _).trans hs.2)
      ((length_lt_tlv _ _).trans ht.2) h
    rw [← flatMap_id', ← flatMap_id'] at hcontents
    exact ⟨selfDelimiting_attr.flatMap_inj hs.1 ht.1 hcontents, hrest⟩

/-- The encoding of a relative distinguished name fits. -/
def RdnFits (rdn : List CanonAttr) : Prop := (encodeSet (sortedAttrs rdn)).length < 256 ^ 4

theorem RdnFits.encode_lt (h : RdnFits rdn) {a : CanonAttr} (ha : a ∈ rdn) :
    a.encode.length < 256 ^ 4 := by
  have hmem : a.encode ∈ sortedAttrs rdn := mem_sortedAttrs.2 ⟨a, ha, rfl⟩
  have hle : a.encode.length ≤ (sortedAttrs rdn).flatten.length :=
    (sublist_flatten_of_mem hmem).length_le
  exact hle.trans_lt ((length_lt_tlv _ _).trans h)

theorem RdnFits.isSet (h : RdnFits rdn) : IsSet (sortedAttrs rdn) := by
  refine ⟨fun e he => ?_, h⟩
  obtain ⟨a, ha, rfl⟩ := mem_sortedAttrs.1 he
  exact ⟨a, rfl, h.encode_lt ha⟩

/-- Equal encodings are those of the same attributes. -/
theorem RdnFits.sortedAttrs_eq_iff (ha : RdnFits a) (hb : RdnFits b) :
    sortedAttrs a = sortedAttrs b ↔ (a : Multiset CanonAttr) = b := by
  rw [X509.sortedAttrs_eq_iff, Multiset.coe_eq_coe]
  refine ⟨fun h => ?_, fun h => h.map _⟩
  have : Nonempty CanonAttr := ⟨⟨[], 0, []⟩⟩
  -- attributes can be read back from their encodings
  let decode := Function.invFunOn CanonAttr.encode {x | x.encode.length < 256 ^ 4}
  have hdecode {x : CanonAttr} (hx : x.encode.length < 256 ^ 4) : decode x.encode = x := by
    have hex : ∃ y ∈ {y : CanonAttr | y.encode.length < 256 ^ 4}, y.encode = x.encode :=
      ⟨x, hx, rfl⟩
    exact encode_inj (Function.invFunOn_mem hex) hx (Function.invFunOn_eq hex)
  have hmap {rdn : List CanonAttr} (hrdn : RdnFits rdn) :
      (rdn.map CanonAttr.encode).map decode = rdn := by
    rw [map_map]
    conv_rhs => rw [← map_id rdn]
    exact map_congr_left fun x hx => hdecode (hrdn.encode_lt hx)
  have hperm := h.map decode
  rwa [hmap ha, hmap hb] at hperm

theorem isPrefix_map_iff {α β γ : Type*} {f : α → β} {g : α → γ} {l l' : List α}
    (h : ∀ a ∈ l, ∀ b ∈ l', f a = f b ↔ g a = g b) :
    l.map f <+: l'.map f ↔ l.map g <+: l'.map g := by
  induction l generalizing l' with
  | nil => simp
  | cons a l ih =>
    cases l' with
    | nil => simp
    | cons b l' =>
      simp only [map_cons, cons_prefix_cons]
      rw [h a mem_cons_self b mem_cons_self,
        ih fun c hc d hd => h c (mem_cons_of_mem _ hc) d (mem_cons_of_mem _ hd)]

theorem rdnFits_of_i2d {rdns : List (List CanonAttr)} {out : Bytes}
    (h : i2dNameCanon rdns = some out) :
    out = (rdns.map sortedAttrs).flatMap encodeSet ∧ ∀ rdn ∈ rdns, RdnFits rdn := by
  simp only [i2dNameCanon] at h
  split at h
  · rename_i hlt
    cases h
    refine ⟨by rw [flatMap_map], fun rdn hrdn => ?_⟩
    have hle : (encodeSet (sortedAttrs rdn)).length ≤
        (rdns.flatMap fun rdn => encodeSet (sortedAttrs rdn)).length := by
      refine List.Sublist.length_le (sublist_flatten_of_mem ?_)
      exact mem_map.2 ⟨rdn, hrdn, rfl⟩
    exact hle.trans_lt (hlt.trans (by decide))
  · cases h

/-- One encoding begins with another exactly if the relative distinguished names do. -/
theorem i2dNameCanon_isPrefix_iff {a b : List (List CanonAttr)} {x y : Bytes}
    (ha : i2dNameCanon a = some x) (hb : i2dNameCanon b = some y) :
    x <+: y ↔ a.map Multiset.ofList <+: b.map Multiset.ofList := by
  obtain ⟨rfl, hfa⟩ := rdnFits_of_i2d ha
  obtain ⟨rfl, hfb⟩ := rdnFits_of_i2d hb
  rw [selfDelimiting_set.isPrefix_iff]
  · exact isPrefix_map_iff fun r hr s hs => (hfa r hr).sortedAttrs_eq_iff (hfb s hs)
  · intro s hs
    obtain ⟨r, hr, rfl⟩ := mem_map.1 hs
    exact (hfa r hr).isSet
  · intro s hs
    obtain ⟨r, hr, rfl⟩ := mem_map.1 hs
    exact (hfb r hr).isSet

end QuicTls.X509
