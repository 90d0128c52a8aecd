import ProcessForge.Bonita.Connector
import ProcessForge.Configuration.Model
import ProcessForge.Expression.Dialect
import ProcessForge.Reference

/-! Connectors for e-mails. The message is a template with the parameters of the descriptor put in. -/

namespace ProcessForge.Bonita

open Xml

/-! ### Messages -/

/-- Parameters of a template: the texts among the parameters of a body. -/
def templateParameters (body : Json) : OrderedMap String :=
  match body.member? "parameters" with
  | some (.obj members) =>
    members.filterMap fun (key, v) => v.text?.map fun s => (key, Expression.emailText s)
  | _ => []

/-- Puts parameters into a template, one after the other. -/
def applyParameters (parameters : OrderedMap String) (template : String) : String :=
  parameters.foldl (fun text (key, value) =>
    if key.isEmpty then text
    else String.ofList (Text.replaceAll (Expression.interpolate key.toList) value.toList text.toList)) template

def templateName (ref : String) : String := Reference.baseName (Reference.fileName (Text.trim ref))

/-- The template of the first reference that names one. Only texts are references, and what counts as
    nothing is passed over. -/
def findTemplate? (templates : OrderedMap String) : List Json → Except Failure (Option String)
  | [] => .ok none
  | ref :: rest =>
    match ref with
    | .str s =>
      if Text.isBlankText s then findTemplate? templates rest
      else match templates.value? (templateName s) with
        | some template => .ok (some template)
        | none => findTemplate? templates rest
    | v => if v.isBlank then findTemplate? templates rest else .error .unusableValue

def isHtml (message : String) : Bool := message.toList.contains '<' && message.toList.contains '>'

/-! ### Parameters -/

def emailField (objects : OrderedMap BusinessObject) (value : Option String) : Draft :=
  match value.filter fun v => !Text.isBlankText v with
  | none => emptyExpression
  | some value =>
    let text := Expression.emailText value
    if Text.contains text "$\x7b" then pattern objects (some text) else constant text

def emailMessage (objects : OrderedMap BusinessObject) (message : String) : Draft :=
  if Text.isBlankText message then emptyExpression
  else pattern objects (some (Expression.emailText message))

def emailHeader? (descriptor : OrderedMap Json) (name : String) : Option String :=
  ((objectMember? descriptor "headers").bind fun headers => textMember? headers name).map Expression.emailText

/-- The text, or the empty one. -/
def orEmpty (s : Option String) : String := s.getD ""

def emailParameters (objects : OrderedMap BusinessObject) (descriptor : OrderedMap Json)
    (server : MailServer) (message : String) : List (String × Draft) :=
  let field (name : String) : Draft := emailField objects (emailHeader? descriptor name)
  let sender := ((emailHeader? descriptor "from").filter (· != "")).or server.username
  [("smtpHost", constant (orEmpty server.host)), ("smtpPort", number (server.port.filter fun port => 0 < port)),
    ("sslSupport", truth false),
    ("starttlsSupport", truth true),
    ("trustCertificate", truth false),
    ("authType", constant "Basic authentication"),
    ("userName", constant (orEmpty server.username)),
    ("password", constant (orEmpty server.password)),
    ("oauth2AccessToken", emptyExpression),
    ("from", emailField objects sender),
    ("returnPath", emptyExpression),
    ("to", field "to"),
    ("bcc", field "bcc"),
    ("cc", field "cc"),
    ("subject", field "subject"),
    ("html", truth (isHtml message)),
    ("message", emailMessage objects message),
    ("headers", table),
    ("charset", constant "UTF-8"),
    ("replyTo", field "replyTo"),
    ("attachments", list)]

/-! ### The connector -/

/-- The template of an e-mail: the one of the task, else the one of the descriptor. -/
def emailTemplate? (templates : OrderedMap String) (templateRef : Option String)
    (descriptor : OrderedMap Json) : Except Failure (Option String) :=
  let own := match templateRef with
    | some ref => Json.str ref
    | none => .null
  let other := ((objectMember? descriptor "body").bind fun body => body.value? "templateRef").getD .null
  findTemplate? templates [own, other]

def messageText (descriptor : OrderedMap Json) (template : String) : String :=
  let body := (descriptor.value? "body").getD .null
  Expression.emailText (applyParameters (templateParameters body) template)

def emailConnector (objects : OrderedMap BusinessObject) (descriptor : OrderedMap Json)
    (task : Option String) (server : MailServer) (message : String) : Connector :=
  { name := connectorName descriptor task "emailConnector"
    definition := "email"
    event := "ON_FINISH"
    version := Defaults.emailVersion
    parameters := emailParameters objects descriptor server message }

end ProcessForge.Bonita
