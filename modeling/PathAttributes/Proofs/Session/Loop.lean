import PathAttributes.Proofs.AsPath.Extended
import PathAttributes.Proofs.Section.RoundTrip
import PathAttributes.Proofs.Session.Export

namespace PathAttributes

open AttrList Tlv

namespace AttrList

variable {context : Context} {l m : AttrList} {path : Blob} {a : Attr}

theorem get?_of_isKept {ts : List Tlv} {t : Tlv} {type : AttrType}
    (hs : l.Sorts (described context ts)) (ht : t ∈ ts) (hk : t.isKept context.peerType = true)
    (hc : t.code = Numbered.code type) :
    l.get? type = some ⟨type.id, Flags.ofOctet t.flags, type.sentValue t.value⟩ := by
  have hdesc : t.attr ∈ described context ts :=
    List.mem_append_left _ (List.mem_map_of_mem (List.mem_filter.2 ⟨ht, hk⟩))
  have hattr := attr_of_known hc
  rw [get?_of_sorts hs hdesc (congrArg Attr.id hattr), hattr]

/-- Whatever is read from a list that was sent comes from the attributes of that list. -/
theorem sorts_of_decode_encode (hl : l.ValuesFit) (h : decode context l.encode = .ok m) :
    Admissible context.peerType ((l.retain .bgp).attrs.map Attr.tlv) ∧
      m.Sorts (described context ((l.retain .bgp).attrs.map Attr.tlv)) := by
  obtain ⟨ts, hts, ha, hs⟩ := exists_admissible_of_decode h
  have hfits : ∀ t ∈ (l.retain .bgp).attrs.map Attr.tlv, t.Fits := by
    intro t ht
    obtain ⟨a, hm, rfl⟩ := List.mem_map.1 ht
    exact Attr.fits_tlv (Attr.length_body_le (hl a (List.mem_of_mem_filter hm)))
  rw [encode_eq] at hts
  rw [flatMap_octets_inj hfits ha.complete hts]
  exact ⟨ha, hs⟩

/-- A path that was sent comes back as it was, and is made of whole segments. -/
theorem asPath_of_decode_encode (hl : l.ValuesFit) (ha : a ∈ l.attrs)
    (hid : a.id = AttrType.asPath.id) (hv : a.value = .asPath path)
    (h : decode context l.encode = .ok m) :
    (m.get? .asPath).bind (·.value.asPath?) = some path ∧ AsPath.IsWhole path := by
  obtain ⟨hadm, hs⟩ := sorts_of_decode_encode hl h
  have hmem : a.tlv ∈ (l.retain .bgp).attrs.map Attr.tlv := by
    refine List.mem_map_of_mem (List.mem_filter.2 ⟨ha, ?_⟩)
    rw [hid]
    rfl
  have hcode : a.tlv.code = Numbered.code AttrType.asPath := congrArg AttrId.code hid
  have hbody : a.body = path := by rw [Attr.body, hv]
  have hkept : a.tlv.isKept context.peerType = true := by
    rw [isKept, hcode]
    simp [Numbered.code]
  refine ⟨?_, ?_⟩
  · rw [get?_of_isKept hs hmem hkept hcode]
    exact congrArg some hbody
  · have hw : AsPath.IsWhole a.body := (hadm.conforms _ hmem).value _ hcode
    rwa [hbody] at hw

end AttrList

namespace Session

variable {s m : Session} {r : Route} {id : Nat} {resolve : Ipv4 → Option Gateway} {store : Store}
  {bs : Octets}

theorem receive_of_error {e : UpdateError} (h : decode m.peering.context bs = .error e) :
    (m.receive resolve store bs).store = store ∧
      (m.receive resolve store bs).result = .error (.update m.peering.remoteAddr e) := by
  simp [receive, h]

theorem receive_of_refusal {l : AttrList} {reason : ImportRefusal}
    (h : decode m.peering.context bs = .ok l) (ha : m.peering.accept resolve l = .error reason) :
    (m.receive resolve store bs).store = store ∧
      (m.receive resolve store bs).result = .ok none ∧
      .notAccepted m.peering.remoteAddr reason ∈ (m.receive resolve store bs).events := by
  simp [receive, h, ha]

theorem receive_of_accept {l : AttrList} {r : Route} (h : decode m.peering.context bs = .ok l)
    (ha : m.peering.accept resolve l = .ok r) :
    (m.receive resolve store bs).store = (store.intern r).1 ∧
      (m.receive resolve store bs).result = .ok (some (store.intern r).2) := by
  simp [receive, h, ha]

/-- What becomes of a message that holds no route for a session: it cannot be read, or its path has
the number of the speaker's own AS. -/
def Declines (m : Session) (resolve : Ipv4 → Option Gateway) (store : Store) (bs : Octets) : Prop :=
  (∃ e, decode m.peering.context bs = .error e ∧
      (m.receive resolve store bs).result = .error (.update m.peering.remoteAddr e)) ∨
    ∃ l, decode m.peering.context bs = .ok l ∧ m.peering.accept resolve l = .error .asLoop ∧
      (m.receive resolve store bs).result = .ok none ∧
      .notAccepted m.peering.remoteAddr .asLoop ∈ (m.receive resolve store bs).events

theorem declines_of_hasLoop
    (h : ∀ l, decode m.peering.context bs = .ok l → m.peering.hasLoop l = true) :
    m.Declines resolve store bs ∧ (m.receive resolve store bs).store = store := by
  cases hd : decode m.peering.context bs with
  | error e =>
    obtain ⟨hstore, hresult⟩ := receive_of_error hd
    exact ⟨.inl ⟨e, hd, hresult⟩, hstore⟩
  | ok l =>
    have ha : m.peering.accept resolve l = .error .asLoop := by
      rw [Peering.accept, if_pos (h l hd)]
    obtain ⟨hstore, hresult, hevent⟩ := receive_of_refusal hd ha
    exact ⟨.inr ⟨l, hd, ha, hresult, hevent⟩, hstore⟩

/-- No route that is sent to another AS is accepted back into the own one. -/
theorem declines_of_notify (hs : s.peering.peerType = .external) (hr : r.attrs.ValuesFit)
    (h : (s.notify r).result = .ok (some id)) :
    ∃ b, (s.notify r).session.buckets.get? id = some b ∧
      ∀ (m : Session) (resolve : Ipv4 → Option Gateway) (store : Store),
        m.peering.localAs = s.peering.localAs →
        m.Declines resolve store b.attrs.encode ∧
          (m.receive resolve store b.attrs.encode).store = store := by
  obtain ⟨high, ho, hgiven⟩ := result_notify_eq_some_iff.1 h
  obtain ⟨b, hb, hattrs⟩ := BucketTable.exists_bucket_of_given hgiven
  obtain ⟨⟨bs, path, hpath, hfirst⟩, hfits⟩ := Peering.hasOwnPath_overrides hs ho
  refine ⟨b, by rwa [buckets_notify ho], fun m resolve store hm ↦ declines_of_hasLoop ?_⟩
  intro l hl
  have hbfits : b.attrs.ValuesFit := by
    rw [ValuesFit, hattrs]
    exact BucketTable.valuesFit_canonical hfits hr
  -- The path with the own AS hides whatever path the route has, also one that is malformed.
  have hown : first? (BucketTable.canonical high r.attrs).attrs AttrType.asPath.id =
      some (.bgp .asPath (.asPath path)) := by
    have heffective : effective high r.attrs AttrType.asPath.id =
        some (.bgp .asPath (.asPath path)) := by
      rw [effective, hfirst, Option.some_or]
    exact (BucketTable.first?_canonical high r.attrs _).trans
      (congrArg (Option.map canonicalAttr) heffective)
  obtain ⟨hget, hwhole⟩ := asPath_of_decode_encode hbfits (hattrs ▸ mem_of_first? hown) rfl rfl hl
  rw [Peering.hasLoop, hget, Option.any_some, hm]
  obtain ⟨rfl, -⟩ := Blob.ofOctets?_eq_some_iff.1 hpath
  exact AsPath.contains_extended ((AsPath.isValid_iff _).2 hwhole)

def edge : Session :=
  ⟨⟨⟨2⟩, .external, 65000, ⟨1⟩, 100, false, none, none⟩, .ofSize 1, .zero⟩

def transit : Route :=
  ⟨.neighbor ⟨⟨3⟩, .external, 65000, ⟨3⟩⟩, .router, none, none, .ofList
    [⟨.bgp 1, ⟨0x40⟩, .int 0⟩, ⟨.bgp 2, ⟨0x40⟩, .asPath [2, 1, 0xFD, 0xEA]⟩,
      ⟨.bgp 3, ⟨0x40⟩, .address ⟨10⟩⟩]⟩

def transitOverrides : AttrList :=
  ⟨[.bgp .asPath (.asPath [2, 2, 0xFD, 0xE8, 0xFD, 0xEA]), .bgp .nextHop (.address ⟨1⟩)], true⟩

theorem declines_of_notify_transit :
    edge.peering.peerType = .external ∧ transit.attrs.ValuesFit ∧
      (edge.notify transit).result = .ok (some 0) ∧
      ∃ b, (edge.notify transit).session.buckets.get? 0 = some b ∧
        ∀ (m : Session) (resolve : Ipv4 → Option Gateway) (store : Store),
          m.peering.localAs = edge.peering.localAs → m.Declines resolve store b.attrs.encode ∧
            (m.receive resolve store b.attrs.encode).store = store := by
  have hfits : transit.attrs.ValuesFit := by
    intro a ha data hdata
    simp only [transit, ofList, List.mem_cons, List.not_mem_nil, or_false] at ha
    rcases ha with rfl | rfl | rfl <;> cases hdata
    decide
  have hgiven :
      BucketAnswer.given (edge.buckets.getOrCreate transitOverrides transit.attrs).result =
        .given (.ok 0) :=
    ((BucketTable.holds_ofSize 1).answer (.getOrCreate transitOverrides transit.attrs)).2.trans
      (by decide +kernel)
  have hsent : (edge.notify transit).result = .ok (some 0) :=
    result_notify_eq_some_iff.2
      ⟨transitOverrides, by decide +kernel, BucketAnswer.given.inj hgiven⟩
  exact ⟨rfl, hfits, hsent, declines_of_notify rfl hfits hsent⟩

end Session

end PathAttributes
