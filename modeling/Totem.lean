import Totem.Authentication.Interleaving
import Totem.Accounts.Concurrent
import Totem.Budgets.Scoping
import Totem.Website.MenuInterleaving
import Totem.Html.Expansion
import Totem.Services.Create
import Totem.Services.Visibility
import Totem.Services.GroupBy
import Totem.Services.UpdateInterleaving
import Totem.Website.WebsiteService
import Totem.Files.Atomicity
import Totem.Website.MediaUpload
import Totem.Computed.Reconcile
import Totem.Computed.Paths
import Totem.Computed.Expression
import Totem.Services.AccessComposition
import Totem.Tenancy.Discipline
import Totem.Tenancy.Cache
import Totem.Tenancy.Scheduler
import Totem.Services.ManyToMany
import Totem.Services.Defaults
import Totem.Website.ThemeOptions
import Totem.Website.MenuSave
import Totem.Services.Resequence
import Totem.Files.Cleanup
import Totem.Html.Script
import Totem.Lib.PathTree
import Totem.Orm.FetchPlan
import Totem.Orm.InstanceDict
import Totem.Html.Splicing
import Totem.Lib.Regex
import Totem.Lib.Css
import Totem.Html.StyleAttribute
import Totem.Website.ThemeCss
import Totem.Api.Permission
import Totem.Authentication.AccessToken
import Totem.Api.Filters
import Totem.Orm.OrderBy
import Totem.Website.ReadTree
import Totem.Schemas.Factory
import Totem.Schemas.Fields
import Totem.Api.Pagination
import Totem.Files.SignedUrls
import Totem.Computed.ToRefresh
import Totem.Services.ShareMeasure
import Totem.Lib.DepthFirst
import Totem.Lib.StableSort
import Totem.Commands.Populate
import Totem.Computed.Depths
import Totem.Api.Ordering
import Totem.Tenancy.Naming
import Totem.Website.Published
import Totem.Lib.Linearization
import Totem.Tenancy.Creation
import Totem.Tenancy.Pools
import Totem.Tenancy.Eviction
import Totem.Tenancy.Jobs
import Totem.Api.Controllers
import Totem.Api.Routing
import Totem.Api.Validation
import Totem.Budgets.Nested
import Totem.Budgets.Isolation
import Totem.Budgets.Users
