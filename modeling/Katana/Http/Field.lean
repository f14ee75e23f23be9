import Katana.Http.CaseFolding

/-!
# Known header fields

The header names the parser knows, as an enumeration with its name table.  A name
is looked up in a small hash table of the popular names first and then in the
sorted table of all the others.  Whatever field a lookup returns, the field's own
name equals the name looked up, up to case.
-/

namespace Katana
namespace Http

/-- `http::field`, in the order of the source; `public_` is its `public_`. -/
inductive Field where
  | unknown
  | aIm
  | accept
  | acceptAdditions
  | acceptCharset
  | acceptDatetime
  | acceptEncoding
  | acceptFeatures
  | acceptLanguage
  | acceptPatch
  | acceptPost
  | acceptRanges
  | accessControl
  | accessControlAllowCredentials
  | accessControlAllowHeaders
  | accessControlAllowMethods
  | accessControlAllowOrigin
  | accessControlExposeHeaders
  | accessControlMaxAge
  | accessControlRequestHeaders
  | accessControlRequestMethod
  | age
  | allow
  | alpn
  | alsoControl
  | altSvc
  | altUsed
  | alternateRecipient
  | alternates
  | apparentlyTo
  | applyToRedirectRef
  | approved
  | archive
  | archivedAt
  | articleNames
  | articleUpdates
  | authenticationControl
  | authenticationInfo
  | authenticationResults
  | authorization
  | autoSubmitted
  | autoforwarded
  | autosubmitted
  | base
  | bcc
  | body
  | cExt
  | cMan
  | cOpt
  | cPep
  | cPepInfo
  | cacheControl
  | caldavTimezones
  | cancelKey
  | cancelLock
  | cc
  | close
  | comments
  | compliance
  | connection
  | contentAlternative
  | contentBase
  | contentDescription
  | contentDisposition
  | contentDuration
  | contentEncoding
  | contentFeatures
  | contentId
  | contentIdentifier
  | contentLanguage
  | contentLength
  | contentLocation
  | contentMd5
  | contentRange
  | contentReturn
  | contentScriptType
  | contentStyleType
  | contentTransferEncoding
  | contentType
  | contentVersion
  | control
  | conversion
  | conversionWithLoss
  | cookie
  | cookie2
  | cost
  | dasl
  | date
  | dateReceived
  | dav
  | defaultStyle
  | deferredDelivery
  | deliveryDate
  | deltaBase
  | depth
  | derivedFrom
  | destination
  | differentialId
  | digest
  | discardedX400IpmsExtensions
  | discardedX400MtsExtensions
  | discloseRecipients
  | dispositionNotificationOptions
  | dispositionNotificationTo
  | distribution
  | dkimSignature
  | dlExpansionHistory
  | downgradedBcc
  | downgradedCc
  | downgradedDispositionNotificationTo
  | downgradedFinalRecipient
  | downgradedFrom
  | downgradedInReplyTo
  | downgradedMailFrom
  | downgradedMessageId
  | downgradedOriginalRecipient
  | downgradedRcptTo
  | downgradedReferences
  | downgradedReplyTo
  | downgradedResentBcc
  | downgradedResentCc
  | downgradedResentFrom
  | downgradedResentReplyTo
  | downgradedResentSender
  | downgradedResentTo
  | downgradedReturnPath
  | downgradedSender
  | downgradedTo
  | ediintFeatures
  | eesstVersion
  | encoding
  | encrypted
  | errorsTo
  | etag
  | expect
  | expires
  | expiryDate
  | ext
  | followupTo
  | forwarded
  | from
  | generateDeliveryReport
  | getprofile
  | hobareg
  | host
  | http2Settings
  | if
  | ifMatch
  | ifModifiedSince
  | ifNoneMatch
  | ifRange
  | ifScheduleTagMatch
  | ifUnmodifiedSince
  | im
  | importance
  | inReplyTo
  | incompleteCopy
  | injectionDate
  | injectionInfo
  | jabberId
  | keepAlive
  | keywords
  | label
  | language
  | lastModified
  | latestDeliveryTime
  | lines
  | link
  | listArchive
  | listHelp
  | listId
  | listOwner
  | listPost
  | listSubscribe
  | listUnsubscribe
  | listUnsubscribePost
  | location
  | lockToken
  | man
  | maxForwards
  | mementoDatetime
  | messageContext
  | messageId
  | messageType
  | meter
  | methodCheck
  | methodCheckExpires
  | mimeVersion
  | mmhsAcp127MessageIdentifier
  | mmhsAuthorizingUsers
  | mmhsCodressMessageIndicator
  | mmhsCopyPrecedence
  | mmhsExemptedAddress
  | mmhsExtendedAuthorisationInfo
  | mmhsHandlingInstructions
  | mmhsMessageInstructions
  | mmhsMessageType
  | mmhsOriginatorPlad
  | mmhsOriginatorReference
  | mmhsOtherRecipientsIndicatorCc
  | mmhsOtherRecipientsIndicatorTo
  | mmhsPrimaryPrecedence
  | mmhsSubjectIndicatorCodes
  | mtPriority
  | negotiate
  | newsgroups
  | nntpPostingDate
  | nntpPostingHost
  | nonCompliance
  | obsoletes
  | opt
  | optional
  | optionalWwwAuthenticate
  | orderingType
  | organization
  | origin
  | originalEncodedInformationTypes
  | originalFrom
  | originalMessageId
  | originalRecipient
  | originalSender
  | originalSubject
  | originatorReturnAddress
  | overwrite
  | p3p
  | path
  | pep
  | pepInfo
  | picsLabel
  | position
  | postingVersion
  | pragma
  | prefer
  | preferenceApplied
  | preventNondeliveryReport
  | priority
  | privicon
  | profileobject
  | protocol
  | protocolInfo
  | protocolQuery
  | protocolRequest
  | proxyAuthenticate
  | proxyAuthenticationInfo
  | proxyAuthorization
  | proxyConnection
  | proxyFeatures
  | proxyInstruction
  | public_
  | publicKeyPins
  | publicKeyPinsReportOnly
  | range
  | received
  | receivedSpf
  | redirectRef
  | references
  | referer
  | refererRoot
  | relayVersion
  | replyBy
  | replyTo
  | requireRecipientValidSince
  | resentBcc
  | resentCc
  | resentDate
  | resentFrom
  | resentMessageId
  | resentReplyTo
  | resentSender
  | resentTo
  | resolutionHint
  | resolverLocation
  | retryAfter
  | returnPath
  | safe
  | scheduleReply
  | scheduleTag
  | secFetchDest
  | secFetchMode
  | secFetchSite
  | secFetchUser
  | secWebsocketAccept
  | secWebsocketExtensions
  | secWebsocketKey
  | secWebsocketProtocol
  | secWebsocketVersion
  | securityScheme
  | seeAlso
  | sender
  | sensitivity
  | server
  | setCookie
  | setCookie2
  | setprofile
  | sioLabel
  | sioLabelHistory
  | slug
  | soapaction
  | solicitation
  | statusUri
  | strictTransportSecurity
  | subject
  | subok
  | subst
  | summary
  | supersedes
  | surrogateCapability
  | surrogateControl
  | tcn
  | te
  | timeout
  | title
  | to
  | topic
  | trailer
  | transferEncoding
  | ttl
  | uaColor
  | uaMedia
  | uaPixels
  | uaResolution
  | uaWindowpixels
  | upgrade
  | urgency
  | uri
  | userAgent
  | variantVary
  | vary
  | vbrInfo
  | version
  | via
  | wantDigest
  | warning
  | wwwAuthenticate
  | xArchivedAt
  | xDeviceAccept
  | xDeviceAcceptCharset
  | xDeviceAcceptEncoding
  | xDeviceAcceptLanguage
  | xDeviceUserAgent
  | xFrameOptions
  | xMittente
  | xPgpSig
  | xRicevuta
  | xRiferimentoMessageId
  | xTiporicevuta
  | xTrasporto
  | xVerificasicurezza
  | x400ContentIdentifier
  | x400ContentReturn
  | x400ContentType
  | x400MtsIdentifier
  | x400Originator
  | x400Received
  | x400Recipients
  | x400Trace
  | xref
  deriving DecidableEq

structure FieldEntry where
  name : List Byte
  value : Field
  deriving DecidableEq

def fieldNameTable : List (List Byte) :=
  [
   "unknown", "A-IM", "Accept", "Accept-Additions", "Accept-Charset",
   "Accept-Datetime", "Accept-Encoding", "Accept-Features", "Accept-Language",
   "Accept-Patch", "Accept-Post", "Accept-Ranges", "Access-Control",
   "Access-Control-Allow-Credentials", "Access-Control-Allow-Headers",
   "Access-Control-Allow-Methods", "Access-Control-Allow-Origin",
   "Access-Control-Expose-Headers", "Access-Control-Max-Age",
   "Access-Control-Request-Headers", "Access-Control-Request-Method", "Age", "Allow",
   "ALPN", "Also-Control", "Alt-Svc", "Alt-Used", "Alternate-Recipient", "Alternates",
   "Apparently-To", "Apply-To-Redirect-Ref", "Approved", "Archive", "Archived-At",
   "Article-Names", "Article-Updates", "Authentication-Control", "Authentication-Info",
   "Authentication-Results", "Authorization", "Auto-Submitted", "Autoforwarded",
   "Autosubmitted", "Base", "Bcc", "Body", "C-Ext", "C-Man", "C-Opt", "C-PEP",
   "C-PEP-Info", "Cache-Control", "CalDAV-Timezones", "Cancel-Key", "Cancel-Lock",
   "Cc", "Close", "Comments", "Compliance", "Connection", "Content-Alternative",
   "Content-Base", "Content-Description", "Content-Disposition", "Content-Duration",
   "Content-Encoding", "Content-Features", "Content-ID", "Content-Identifier",
   "Content-Language", "Content-Length", "Content-Location", "Content-MD5",
   "Content-Range", "Content-Return", "Content-Script-Type", "Content-Style-Type",
   "Content-Transfer-Encoding", "Content-Type", "Content-Version", "Control",
   "Conversion", "Conversion-With-Loss", "Cookie", "Cookie2", "Cost", "DASL", "Date",
   "Date-Received", "DAV", "Default-Style", "Deferred-Delivery", "Delivery-Date",
   "Delta-Base", "Depth", "Derived-From", "Destination", "Differential-ID", "Digest",
   "Discarded-X400-IPMS-Extensions", "Discarded-X400-MTS-Extensions",
   "Disclose-Recipients", "Disposition-Notification-Options",
   "Disposition-Notification-To", "Distribution", "DKIM-Signature",
   "DL-Expansion-History", "Downgraded-Bcc", "Downgraded-Cc",
   "Downgraded-Disposition-Notification-To", "Downgraded-Final-Recipient",
   "Downgraded-From", "Downgraded-In-Reply-To", "Downgraded-Mail-From",
   "Downgraded-Message-Id", "Downgraded-Original-Recipient", "Downgraded-Rcpt-To",
   "Downgraded-References", "Downgraded-Reply-To", "Downgraded-Resent-Bcc",
   "Downgraded-Resent-Cc", "Downgraded-Resent-From", "Downgraded-Resent-Reply-To",
   "Downgraded-Resent-Sender", "Downgraded-Resent-To", "Downgraded-Return-Path",
   "Downgraded-Sender", "Downgraded-To", "EDIINT-Features", "Eesst-Version",
   "Encoding", "Encrypted", "Errors-To", "ETag", "Expect", "Expires", "Expiry-Date",
   "Ext", "Followup-To", "Forwarded", "From", "Generate-Delivery-Report", "GetProfile",
   "Hobareg", "Host", "HTTP2-Settings", "If", "If-Match", "If-Modified-Since",
   "If-None-Match", "If-Range", "If-Schedule-Tag-Match", "If-Unmodified-Since", "IM",
   "Importance", "In-Reply-To", "Incomplete-Copy", "Injection-Date", "Injection-Info",
   "Jabber-ID", "Keep-Alive", "Keywords", "Label", "Language", "Last-Modified",
   "Latest-Delivery-Time", "Lines", "Link", "List-Archive", "List-Help", "List-ID",
   "List-Owner", "List-Post", "List-Subscribe", "List-Unsubscribe",
   "List-Unsubscribe-Post", "Location", "Lock-Token", "Man", "Max-Forwards",
   "Memento-Datetime", "Message-Context", "Message-ID", "Message-Type", "Meter",
   "Method-Check", "Method-Check-Expires", "MIME-Version",
   "MMHS-Acp127-Message-Identifier", "MMHS-Authorizing-Users",
   "MMHS-Codress-Message-Indicator", "MMHS-Copy-Precedence", "MMHS-Exempted-Address",
   "MMHS-Extended-Authorisation-Info", "MMHS-Handling-Instructions",
   "MMHS-Message-Instructions", "MMHS-Message-Type", "MMHS-Originator-PLAD",
   "MMHS-Originator-Reference", "MMHS-Other-Recipients-Indicator-CC",
   "MMHS-Other-Recipients-Indicator-To", "MMHS-Primary-Precedence",
   "MMHS-Subject-Indicator-Codes", "MT-Priority", "Negotiate", "Newsgroups",
   "NNTP-Posting-Date", "NNTP-Posting-Host", "Non-Compliance", "Obsoletes", "Opt",
   "Optional", "Optional-WWW-Authenticate", "Ordering-Type", "Organization", "Origin",
   "Original-Encoded-Information-Types", "Original-From", "Original-Message-ID",
   "Original-Recipient", "Original-Sender", "Original-Subject",
   "Originator-Return-Address", "Overwrite", "P3P", "Path", "PEP", "Pep-Info",
   "PICS-Label", "Position", "Posting-Version", "Pragma", "Prefer",
   "Preference-Applied", "Prevent-NonDelivery-Report", "Priority", "Privicon",
   "ProfileObject", "Protocol", "Protocol-Info", "Protocol-Query", "Protocol-Request",
   "Proxy-Authenticate", "Proxy-Authentication-Info", "Proxy-Authorization",
   "Proxy-Connection", "Proxy-Features", "Proxy-Instruction", "Public",
   "Public-Key-Pins", "Public-Key-Pins-Report-Only", "Range", "Received",
   "Received-SPF", "Redirect-Ref", "References", "Referer", "Referer-Root",
   "Relay-Version", "Reply-By", "Reply-To", "Require-Recipient-Valid-Since",
   "Resent-Bcc", "Resent-Cc", "Resent-Date", "Resent-From", "Resent-Message-ID",
   "Resent-Reply-To", "Resent-Sender", "Resent-To", "Resolution-Hint",
   "Resolver-Location", "Retry-After", "Return-Path", "Safe", "Schedule-Reply",
   "Schedule-Tag", "Sec-Fetch-Dest", "Sec-Fetch-Mode", "Sec-Fetch-Site",
   "Sec-Fetch-User", "Sec-WebSocket-Accept", "Sec-WebSocket-Extensions",
   "Sec-WebSocket-Key", "Sec-WebSocket-Protocol", "Sec-WebSocket-Version",
   "Security-Scheme", "See-Also", "Sender", "Sensitivity", "Server", "Set-Cookie",
   "Set-Cookie2", "SetProfile", "SIO-Label", "SIO-Label-History", "Slug", "SoapAction",
   "Solicitation", "Status-URI", "Strict-Transport-Security", "Subject", "SubOK",
   "Subst", "Summary", "Supersedes", "Surrogate-Capability", "Surrogate-Control",
   "TCN", "TE", "Timeout", "Title", "To", "Topic", "Trailer", "Transfer-Encoding",
   "TTL", "UA-Color", "UA-Media", "UA-Pixels", "UA-Resolution", "UA-Windowpixels",
   "Upgrade", "Urgency", "URI", "User-Agent", "Variant-Vary", "Vary", "VBR-Info",
   "Version", "Via", "Want-Digest", "Warning", "WWW-Authenticate", "X-Archived-At",
   "X-Device-Accept", "X-Device-Accept-Charset", "X-Device-Accept-Encoding",
   "X-Device-Accept-Language", "X-Device-User-Agent", "X-Frame-Options", "X-Mittente",
   "X-PGP-Sig", "X-Ricevuta", "X-Riferimento-Message-ID", "X-TipoRicevuta",
   "X-Trasporto", "X-VerificaSicurezza", "X400-Content-Identifier",
   "X400-Content-Return", "X400-Content-Type", "X400-MTS-Identifier",
   "X400-Originator", "X400-Received", "X400-Recipients", "X400-Trace", "Xref"].map bytesOf

def fieldToString (f : Field) : List Byte :=
  fieldNameTable.getD f.ctorIdx (bytesOf "unknown")

def popularHeaders : List FieldEntry :=
  ([
   ("Host", .host),
   ("User-Agent", .userAgent),
   ("Accept", .accept),
   ("Accept-Encoding", .acceptEncoding),
   ("Accept-Language", .acceptLanguage),
   ("Content-Type", .contentType),
   ("Content-Length", .contentLength),
   ("Connection", .connection),
   ("Cache-Control", .cacheControl),
   ("Cookie", .cookie),
   ("Authorization", .authorization),
   ("Referer", .referer),
   ("Origin", .origin),
   ("Date", .date),
   ("Server", .server),
   ("Set-Cookie", .setCookie),
   ("Transfer-Encoding", .transferEncoding),
   ("If-Modified-Since", .ifModifiedSince),
   ("If-None-Match", .ifNoneMatch),
   ("ETag", .etag),
   ("Expires", .expires),
   ("Last-Modified", .lastModified),
   ("Vary", .vary),
   ("Access-Control-Allow-Origin", .accessControlAllowOrigin),
   ("Content-Encoding", .contentEncoding)] : List (String × Field)).map
    fun entry => ⟨bytesOf entry.1, entry.2⟩

/-- The fields that `get_rare_headers` skips. -/
def popularFields : List Field :=
  [
   .host, .userAgent, .accept, .acceptEncoding, .acceptLanguage, .contentType,
   .contentLength, .connection, .cacheControl, .cookie, .authorization, .referer,
   .origin, .date, .server, .setCookie, .transferEncoding, .ifModifiedSince,
   .ifNoneMatch, .etag, .expires, .lastModified, .vary, .accessControlAllowOrigin,
   .contentEncoding]

def caseInsensitiveLess : List Byte → List Byte → Bool
  | [], b => b ≠ []
  | _ :: _, [] => false
  | x :: a, y :: b =>
      -- `char` is signed, so bytes above 0x7f come first
      if (asciiLower x).toInt8 < (asciiLower y).toInt8 then true
      else if (asciiLower y).toInt8 < (asciiLower x).toInt8 then false
      else caseInsensitiveLess a b

def popularHash (name : List Byte) : ℕ :=
  let first := (name.headD 0 ||| 0x20).toNat
  let last := (name.getLastD 0 ||| 0x20).toNat
  (first * 131 + last * 17 + name.length) % 64

/-- A bucket holds at most four entries; later ones are dropped. -/
def popularBucket (hash : ℕ) : List FieldEntry :=
  (popularHeaders.filter fun entry => popularHash entry.name = hash).take 4

/-- The inner loop of the sort: the smallest entry moves to the front. -/
def selectPass (front : FieldEntry) : List FieldEntry → FieldEntry × List FieldEntry
  | [] => (front, [])
  | entry :: rest =>
      if caseInsensitiveLess entry.name front.name then
        let (smallest, rest) := selectPass entry rest
        (smallest, front :: rest)
      else
        let (smallest, rest) := selectPass front rest
        (smallest, entry :: rest)

/-- The exchange sort of `get_rare_headers`, one outer pass per entry. -/
def exchangeSort : ℕ → List FieldEntry → List FieldEntry
  | 0, entries => entries
  | _ + 1, [] => []
  | passes + 1, front :: entries =>
      let (smallest, rest) := selectPass front entries
      smallest :: exchangeSort passes rest

/-- The table entries of the fields that are not popular. -/
def rareEntries : List FieldEntry :=
  fieldNameTable.zipIdx.filterMap fun entry =>
    let fld := Field.ofNat entry.2
    if fld ∈ popularFields then none else some ⟨entry.1, fld⟩

/-- `get_rare_headers`: an array of 342 entries, those left over being blank. -/
def rareHeaders : List FieldEntry :=
  let entries := rareEntries
  exchangeSort 342
    (entries ++ List.replicate (342 - entries.length) ⟨[], .unknown⟩)

/-- `std::lower_bound` on the sorted table. -/
def lowerBound (name : List Byte) : Option FieldEntry :=
  rareHeaders.find? fun entry => !caseInsensitiveLess entry.name name

/-- The bucket is searched first, then the entry of the sorted table is compared. -/
def findField (bucket : List FieldEntry) (bound : Option FieldEntry)
    (name : List Byte) : Field :=
  match bucket.find? fun entry =>
      entry.name.length = name.length && ciEqual entry.name name with
  | some entry => entry.value
  | none =>
      match bound with
      | some entry => if ciEqual entry.name name then entry.value else .unknown
      | none => .unknown

def stringToField (name : List Byte) : Field :=
  if name = [] then .unknown
  else findField (popularBucket (popularHash name)) (lowerBound name) name

theorem selectPass_mem (front : FieldEntry) (entries : List FieldEntry) {entry : FieldEntry} :
    entry ∈ (selectPass front entries).1 :: (selectPass front entries).2 ↔
      entry ∈ front :: entries := by
  induction entries generalizing front with
  | nil => simp [selectPass]
  | cons next rest ih =>
      unfold selectPass
      by_cases hless : caseInsensitiveLess next.name front.name
      · have hrest := ih next
        simp only [hless, if_true, List.mem_cons] at hrest ⊢
        tauto
      · have hrest := ih front
        simp only [hless, Bool.false_eq_true, if_false, List.mem_cons] at hrest ⊢
        tauto

theorem exchangeSort_mem {passes : ℕ} {entry : FieldEntry} {entries : List FieldEntry} :
    entry ∈ exchangeSort passes entries ↔ entry ∈ entries := by
  induction passes generalizing entries with
  | zero => rfl
  | succ passes ih =>
      cases entries with
      | nil => rfl
      | cons front rest =>
          rw [← selectPass_mem front rest]
          simp only [exchangeSort, List.mem_cons, ih]

/-- What is read off the tables, in one evaluation. -/
theorem table_facts :
    (∀ i < 357, (Field.ofNat i).ctorIdx = i) ∧
    (∀ entry ∈ popularHeaders, entry.name = fieldToString entry.value ∧ entry.name ≠ [] ∧
      entry.value ≠ .unknown ∧ (popularBucket (popularHash entry.name)).find? (fun other =>
        other.name.length = entry.name.length && ciEqual other.name entry.name) = some entry) ∧
    rareEntries.length = 332 := by
  decide +kernel

theorem ctorIdx_ofNat {i : ℕ} (hi : i < 357) : (Field.ofNat i).ctorIdx = i :=
  table_facts.1 i hi

/-- A popular header is stored under its field's name and found in its bucket. -/
theorem popularHeaders_found :
    ∀ entry ∈ popularHeaders, entry.name = fieldToString entry.value ∧ entry.name ≠ [] ∧
      entry.value ≠ .unknown ∧ (popularBucket (popularHash entry.name)).find? (fun other =>
        other.name.length = entry.name.length && ciEqual other.name entry.name) = some entry :=
  table_facts.2.1

set_option maxRecDepth 4000 in
theorem fieldNameTable_length : fieldNameTable.length = 357 := by
  unfold fieldNameTable
  rw [List.length_map]
  rfl

theorem rareEntries_name {entry : FieldEntry} (hentry : entry ∈ rareEntries) :
    entry.name = fieldToString entry.value := by
  obtain ⟨⟨name, i⟩, hmem, hsome⟩ := List.mem_filterMap.mp hentry
  have hname := List.mem_zipIdx_iff_getElem?.mp hmem
  have hi : i < 357 := by
    rw [← fieldNameTable_length]
    exact (List.getElem?_eq_some_iff.mp hname).1
  by_cases hpopular : Field.ofNat i ∈ popularFields
  · simp [hpopular] at hsome
  · simp only [hpopular, if_false, Option.some.injEq] at hsome
    subst hsome
    simp only [fieldToString, ctorIdx_ofNat hi, List.getD_eq_getElem?_getD]
    rw [hname]
    rfl

theorem lowerBound_name {name : List Byte} {entry : FieldEntry}
    (h : lowerBound name = some entry) :
    entry.value = .unknown ∨ entry.name = fieldToString entry.value := by
  have hmem := List.mem_of_find?_eq_some h
  rw [rareHeaders, exchangeSort_mem, List.mem_append] at hmem
  rcases hmem with hrare | hblank
  · exact .inr (rareEntries_name hrare)
  · rw [List.eq_of_mem_replicate hblank]
    exact .inl rfl

theorem popularBucket_mem {hash : ℕ} {entry : FieldEntry}
    (h : entry ∈ popularBucket hash) : entry ∈ popularHeaders := by
  unfold popularBucket at h
  exact (List.mem_filter.mp (List.mem_of_mem_take h)).1

theorem findField_cases (bucket : List FieldEntry) (bound : Option FieldEntry)
    (name : List Byte) :
    findField bucket bound name = .unknown ∨
      ∃ entry, (entry ∈ bucket ∨ bound = some entry) ∧
        ciEqual entry.name name = true ∧ findField bucket bound name = entry.value := by
  unfold findField
  split
  next entry hbucket =>
    have hequal := List.find?_some hbucket
    simp only [Bool.and_eq_true] at hequal
    exact .inr ⟨entry, .inl (List.mem_of_find?_eq_some hbucket), hequal.2, rfl⟩
  next =>
    split
    next entry =>
      split
      next hequal => exact .inr ⟨entry, .inr rfl, hequal, rfl⟩
      next => exact .inl rfl
    next => exact .inl rfl

theorem fieldToString_mem (f : Field) :
    fieldToString f ∈ bytesOf "unknown" :: fieldNameTable := by
  rw [fieldToString, List.getD_eq_getElem?_getD]
  cases hentry : fieldNameTable[f.ctorIdx]? with
  | none => exact List.mem_cons_self
  | some text => exact List.mem_cons_of_mem _ (List.mem_of_getElem? hentry)

/-- A lookup that returns a field has found the field's own name. -/
theorem stringToField_sound {name : List Byte} {f : Field}
    (h : stringToField name = f) (hf : f ≠ .unknown) :
    ciEqual (fieldToString f) name = true := by
  unfold stringToField at h
  by_cases hempty : name = []
  · rw [if_pos hempty] at h
    exact absurd h.symm hf
  rw [if_neg hempty] at h
  rcases findField_cases (popularBucket (popularHash name)) (lowerBound name) name with
    hunknown | ⟨entry, hentry, hequal, hvalue⟩
  · exact absurd (h.symm.trans hunknown) hf
  · have hname : entry.name = fieldToString entry.value := by
      rcases hentry with hbucket | hbound
      · exact (popularHeaders_found entry (popularBucket_mem hbucket)).1
      · refine (lowerBound_name hbound).resolve_left fun hunknown => hf ?_
        rw [← h, hvalue, hunknown]
    rwa [← h, hvalue, ← hname]

theorem stringToField_eq_unknown {name : List Byte}
    (h : ∀ text ∈ bytesOf "unknown" :: fieldNameTable, ciEqual text name = false) :
    stringToField name = .unknown := by
  by_contra hknown
  have hfound := stringToField_sound rfl hknown
  rw [h _ (fieldToString_mem _)] at hfound
  cases hfound

/-- Two names of the same known field are equal up to case. -/
theorem ciEqual_of_stringToField {name name' : List Byte}
    (h : stringToField name = stringToField name')
    (hknown : stringToField name ≠ .unknown) : ciEqual name name' = true :=
  ciEqual_trans (ciEqual_symm (stringToField_sound rfl hknown))
    (stringToField_sound h.symm hknown)

theorem popularHash_congr {a b : List Byte} (h : ciEqual a b = true) :
    popularHash a = popularHash b := by
  have hlength := ciEqual_length h
  have hfirst := ciEqual_or_get h 0
  have hlast := ciEqual_or_get h (a.length - 1)
  unfold popularHash
  have hd : ∀ l : List Byte, l.headD 0 = l.getD 0 0 := by
    intro l
    cases l <;> rfl
  have hl : ∀ l : List Byte, l.getLastD 0 = l.getD (l.length - 1) 0 := by
    intro l
    rw [List.getLastD_eq_getLast?, List.getLast?_eq_getElem?, List.getD_eq_getElem?_getD]
  rw [hd, hd, hl, hl, hfirst, hlast, hlength]

/-- Spellings of a name that differ in case only fall into one bucket and match
the same entry of it. -/
theorem stringToField_of_popular {name name' : List Byte} {entry : FieldEntry}
    (hname : name ≠ []) (hnames : ciEqual name name' = true)
    (hfound : (popularBucket (popularHash name')).find? (fun entry =>
      entry.name.length = name'.length && ciEqual entry.name name') = some entry) :
    stringToField name = entry.value := by
  have hlength := ciEqual_length hnames
  unfold stringToField findField
  rw [if_neg hname, popularHash_congr hnames]
  simp only [ciEqual_congr_right hnames, hlength, hfound]

/-- Only the spellings of a popular name are looked up as its field. -/
theorem stringToField_eq_iff {entry : FieldEntry} (hentry : entry ∈ popularHeaders)
    {name : List Byte} : stringToField name = entry.value ↔ ciEqual entry.name name = true := by
  obtain ⟨hname, htext, hfield, hfound⟩ := popularHeaders_found entry hentry
  constructor
  · intro h
    rw [hname]
    exact stringToField_sound h hfield
  · intro h
    apply stringToField_of_popular _ (ciEqual_symm h) hfound
    rintro rfl
    exact htext (List.length_eq_zero_iff.mp (ciEqual_length h))

theorem stringToField_eq_transferEncoding {name : List Byte} :
    stringToField name = .transferEncoding ↔
      ciEqual (bytesOf "Transfer-Encoding") name = true := by
  have hentry : ⟨bytesOf "Transfer-Encoding", .transferEncoding⟩ ∈ popularHeaders := by
    simp [popularHeaders]
  exact stringToField_eq_iff hentry

theorem stringToField_eq_contentLength {name : List Byte} :
    stringToField name = .contentLength ↔
      ciEqual (bytesOf "Content-Length") name = true := by
  have hentry : ⟨bytesOf "Content-Length", .contentLength⟩ ∈ popularHeaders := by
    simp [popularHeaders]
  exact stringToField_eq_iff hentry

theorem stringToField_eq_host {name : List Byte} :
    stringToField name = .host ↔ ciEqual (bytesOf "Host") name = true := by
  have hentry : ⟨bytesOf "Host", .host⟩ ∈ popularHeaders := by
    simp [popularHeaders]
  exact stringToField_eq_iff hentry

end Http
end Katana
