import Wifidog.Lib.CText
import Wifidog.Lib.CBuffer
import Wifidog.Lib.CScan
import Wifidog.Lib.Getopt
import Wifidog.Lib.Runs
import Wifidog.Lib.Traverse
import Wifidog.Lib.Teardown
import Wifidog.Lib.Meters
import Wifidog.Lib.Renumber
import Wifidog.Model.Conf
import Wifidog.Model.ClientList
import Wifidog.Model.Listing
import Wifidog.Portal.Injection
import Wifidog.Portal.Location
import Wifidog.Access.Stale
import Wifidog.Access.Login
import Wifidog.Access.Sessions
import Wifidog.Access.Failures
import Wifidog.Access.Logout
import Wifidog.Policy.Filter
import Wifidog.Policy.Captive
import Wifidog.Policy.Teardown
import Wifidog.Policy.Mentions
import Wifidog.Restart.Restore
import Wifidog.Restart.Handover
import Wifidog.Restart.Arguments
import Wifidog.Central.Failover
import Wifidog.Central.Exemption
import Wifidog.Central.Answer
import Wifidog.Central.Online
import Wifidog.Accounting.Incoming
import Wifidog.Accounting.History
import Wifidog.Accounting.Deltas
import Wifidog.Accounting.Idle
import Wifidog.Accounting.Timeout
import Wifidog.Accounting.Orphans
import Wifidog.Rules.Grammar
import Wifidog.Rules.Compile
import Wifidog.Rules.GatewayId
import Wifidog.Rules.Rulesets
import Wifidog.Config.Comments
import Wifidog.Config.Endings
import Wifidog.Config.TrustedMacs
import Wifidog.Control.Packets
import Wifidog.Lib.Paths
import Wifidog.Model.Httpd
import Wifidog.Server.Links
import Wifidog.Control.Exchange
import Wifidog.Policy.Gateway
import Wifidog.Restart.Traffic
import Wifidog.Access.Round
import Wifidog.Accounting.Listing
import Wifidog.Server.Overlap
import Wifidog.Server.Pages
